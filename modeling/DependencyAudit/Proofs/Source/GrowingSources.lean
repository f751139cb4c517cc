import DependencyAudit.Analysis
import DependencyAudit.Proofs.Source.LongerTexts
import DependencyAudit.Proofs.Source.SourceScan
import DependencyAudit.Proofs.Text.Utf8Encoding

/-!
# Packages in use when sources are added

A new file, or more bytes at the end of a file, can bring packages into use and takes
none out of use.  The invariant is that every source stays a source and still imports
what it imported, which the scan of a longer text gives.  So a dependency that is
reported as unused after such a change was reported before, and a misplaced one still is.

The change must leave the tree within the limits of a scan: a new source whose path is
too long to be asked about ends every later one, and so does a new directory that is too
deep.
-/

namespace DependencyAudit

/-- The analyses of two trees, when the later one has no package less in use. -/
def Analysis.OnlyGainsUse (limits : Limits) (tree after : Tree) (root : Path)
    (mode : Source.Mode) : Prop :=
  ∀ manifest checkAll, ∃ old new,
    ofSources limits tree manifest root checkAll mode = .ok old ∧
    ofSources limits after manifest root checkAll mode = .ok new ∧
    new.value.unused ⊆ old.value.unused ∧ old.value.misplaced ⊆ new.value.misplaced

namespace Source

variable {limits : Limits} {tree after : Tree} {root : Path} {location place : Location}
variable {names : List String} {bytes : List UInt8} {mode : Mode} {name : String}

/-! ## Sources of a tree that grows -/

theorem exists_isSource_of_grows (h : Tree.Grows tree after)
    (hsource : IsSource tree root location names bytes) :
    ∃ more, IsSource after root location names (bytes ++ more) := by
  obtain ⟨more, hfile⟩ := h.file hsource.file
  exact ⟨more, h.directory?_eq_some hsource.directory, hsource.below, hfile, hsource.suffix,
    hsource.visible, hsource.included⟩

theorem IsUsed.of_grows (h : Tree.Grows tree after) (hused : IsUsed tree root name) :
    IsUsed after root name := by
  obtain ⟨location, names, bytes, specifier, hsource, hspecifier, hname⟩ := hused
  obtain ⟨more, hlonger⟩ := exists_isSource_of_grows h hsource
  have hkept := (specifiersOfBytes_prefix_append bytes more).subset hspecifier
  exact ⟨location, names, _, specifier, hlonger, hkept, hname⟩

theorem IsScannable.of_grows (h : Tree.Grows tree after) (hscan : IsScannable limits after root) :
    IsScannable limits tree root := by
  refine ⟨⟨hscan.segments, hscan.path, ?_⟩, ?_⟩
  · intro location names node hdirectory hbelow hnode hvisited
    have hlater := h.directory?_eq_some hdirectory
    rcases hvisited with rfl | heligible
    · exact hscan.below location names _ hlater hbelow (h.directory hnode) (Or.inl rfl)
    · obtain ⟨kept, hkept⟩ := h.exists_node hnode
      exact hscan.below location names kept hlater hbelow hkept (Or.inr heligible)
  · intro location names hdirectory hnode
    exact hscan.shallow location names (h.directory?_eq_some hdirectory) (h.directory hnode)

theorem usedPackages_of_grows (hmode : mode.HasWorkers) (h : Tree.Grows tree after)
    (hscan : IsScannable limits after root) :
    ∃ old new, usedPackages limits tree root mode = .ok old ∧
      usedPackages limits after root mode = .ok new ∧
      ListsUsed tree root old.value ∧ ListsUsed after root new.value := by
  obtain ⟨sources, hsources⟩ := (hscan.of_grows h).exists_files
  obtain ⟨later, hlater⟩ := hscan.exists_files
  obtain ⟨old, hold, holdLists⟩ := usedPackages_eq_ok hmode hsources
  obtain ⟨new, hnew, hnewLists⟩ := usedPackages_eq_ok hmode hlater
  exact ⟨old, new, hold, hnew, holdLists, hnewLists⟩

theorem subset_of_grows (h : Tree.Grows tree after) {old new : List String}
    (hold : ListsUsed tree root old) (hnew : ListsUsed after root new) : old ⊆ new := by
  intro name hmem
  rw [hnew.mem_iff]
  exact IsUsed.of_grows h ((hold.mem_iff name).mp hmem)

/-! ## The analysis -/

theorem onlyGainsUse_of_grows (hmode : mode.HasWorkers) (h : Tree.Grows tree after)
    (hscan : IsScannable limits after root) :
    Analysis.OnlyGainsUse limits tree after root mode := by
  obtain ⟨old, new, hold, hnew, holdLists, hnewLists⟩ := usedPackages_of_grows hmode h hscan
  have hsubset : old.value.map CodeText.ofString ⊆ new.value.map CodeText.ofString :=
    List.map_subset _ (subset_of_grows h holdLists hnewLists)
  intro manifest checkAll
  simp only [Analysis.ofSources, hold, hnew]
  refine ⟨_, _, rfl, rfl, ?_, ?_⟩
  · intro name hunused
    obtain ⟨hdeclared, hnone⟩ := Analysis.mem_unusedNames.mp hunused
    exact Analysis.mem_unusedNames.mpr ⟨hdeclared, fun hmem => hnone (hsubset hmem)⟩
  · intro name hmisplaced
    obtain ⟨hdevelopment, hmem⟩ := Analysis.mem_misplacedNames.mp hmisplaced
    exact Analysis.mem_misplacedNames.mpr ⟨hdevelopment, hsubset hmem⟩

/-! ## A new file -/

/-- The file at a location is a source with the given bytes. -/
def IsSourceAt (tree : Tree) (root : Path) (place : Location) (bytes : List UInt8) : Prop :=
  ∃ location names, place = location ++ names ∧ IsSource tree root location names bytes

theorem isUsed_of_isSourceAt (h : IsSourceAt tree root place bytes)
    (hname : name ∈ packageNames (specifiersOfBytes bytes)) : IsUsed tree root name := by
  obtain ⟨location, names, -, hsource⟩ := h
  obtain ⟨specifier, hspecifier, hpackage⟩ := List.mem_filterMap.mp hname
  exact ⟨location, names, bytes, specifier, hsource, hspecifier, hpackage⟩

theorem isUsed_of_addsFile (h : Tree.AddsFile tree after place bytes)
    (hroot : tree.directory? root = .ok (some location)) :
    IsUsed after root name ↔ IsUsed tree root name ∨
      IsSourceAt after root place bytes ∧ name ∈ packageNames (specifiersOfBytes bytes) := by
  constructor
  · intro hused
    obtain ⟨other, names, found, specifier, hsource, hspecifier, hname⟩ := hused
    cases Tree.location_unique (h.grows.directory?_eq_some hroot) hsource.directory
    rcases (h.file_iff _ _).mp hsource.file with hold | ⟨hplace, rfl⟩
    · exact Or.inl ⟨location, names, found, specifier,
        ⟨hroot, hsource.below, hold, hsource.suffix, hsource.visible, hsource.included⟩,
        hspecifier, hname⟩
    · exact Or.inr ⟨⟨location, names, hplace.symm, hsource⟩,
        List.mem_filterMap.mpr ⟨specifier, hspecifier, hname⟩⟩
  · rintro (hused | ⟨hsource, hname⟩)
    · exact IsUsed.of_grows h.grows hused
    · exact isUsed_of_isSourceAt hsource hname

/-- A new file brings into use the packages that it imports, if it is a source, and
changes nothing otherwise; more bytes at the end of a file take nothing out of use.
Either way a dependency is unused afterwards only if it was before, and one that was
misplaced still is. -/
theorem added_sources_keep_packages_in_use (hmode : mode.HasWorkers)
    (hroot : tree.directory? root = .ok (some location)) :
    (∀ place bytes after, tree.node? place = none → tree.write? place bytes = some after →
      IsScannable limits after root →
      ∃ old new, usedPackages limits tree root mode = .ok old ∧
        usedPackages limits after root mode = .ok new ∧
        (∀ name, name ∈ new.value ↔ name ∈ old.value ∨
          IsSourceAt after root place bytes ∧ name ∈ packageNames (specifiersOfBytes bytes)) ∧
        Analysis.OnlyGainsUse limits tree after root mode) ∧
    (∀ place bytes more after, tree.node? place = some (.file bytes) →
      tree.write? place (bytes ++ more) = some after → IsScannable limits after root →
      ∃ old new, usedPackages limits tree root mode = .ok old ∧
        usedPackages limits after root mode = .ok new ∧
        old.value ⊆ new.value ∧ Analysis.OnlyGainsUse limits tree after root mode) := by
  constructor
  · intro place bytes after hnone hwrite hscan
    have hadds := Tree.addsFile_of_write? hnone hwrite
    obtain ⟨old, new, hold, hnew, holdLists, hnewLists⟩ :=
      usedPackages_of_grows hmode hadds.grows hscan
    refine ⟨old, new, hold, hnew, ?_, onlyGainsUse_of_grows hmode hadds.grows hscan⟩
    intro name
    rw [hnewLists.mem_iff, holdLists.mem_iff, isUsed_of_addsFile hadds hroot]
  · intro place bytes more after hfile hwrite hscan
    rw [Tree.write?_of_file hfile (bytes ++ more), Option.some.injEq] at hwrite
    subst hwrite
    have hgrows := Tree.grows_replace hfile more
    obtain ⟨old, new, hold, hnew, holdLists, hnewLists⟩ :=
      usedPackages_of_grows hmode hgrows hscan
    exact ⟨old, new, hold, hnew, subset_of_grows hgrows holdLists hnewLists,
      onlyGainsUse_of_grows hmode hgrows hscan⟩

/-! ## A small project that grows -/

theorem exists_write?_sampleProject (hname : isFileName name = true)
    (hnew : Tree.sampleProject.node? ["src", name] = none) (bytes : List UInt8) :
    ∃ after, Tree.sampleProject.write? ["src", name] bytes = some after ∧
      after.nodes = (["src", name], .file bytes) :: Tree.sampleProject.nodes := by
  have hsource : isFileName "src" = true := by cbv
  have hparents : Tree.sampleProject.makeDirectory? [] ["src"] = some Tree.sampleProject := by
    simp [Tree.makeDirectory?, node?_sampleSources]
  have hplace : (["src", name] ≠ [] ∧ ∀ part ∈ ["src", name], isFileName part = true) ∧
      Tree.sampleProject.node? ["src", name] = none ∧
      Tree.sampleProject.node? ["src"] = some .directory :=
    ⟨⟨by simp, by simp [hsource, hname]⟩, hnew, node?_sampleSources⟩
  have hadd : ∃ after, Tree.sampleProject.add? ["src", name] (.file bytes) = some after := by
    unfold Tree.add?
    exact ⟨_, dif_pos hplace⟩
  obtain ⟨after, hafter⟩ := hadd
  have hwrite : Tree.sampleProject.write? ["src", name] bytes = some after := by
    simp only [Tree.write?, hnew, List.dropLast_cons_cons, List.dropLast_singleton, hparents,
      hafter]
  exact ⟨after, hwrite, (Tree.add?_eq_some hafter).2.1⟩

theorem node?_sampleProject_new : Tree.sampleProject.node? ["src", "z.js"] = none := by
  simp [Tree.node?, Tree.sampleProject]

theorem node?_sampleProject_first :
    Tree.sampleProject.node? ["src", "x.js"] = some (.file (Utf8.encode "import 'a'".toList)) := by
  simp [Tree.node?, Tree.sampleProject]

theorem isScannable_of_new_source {bytes : List UInt8} {after : Tree}
    (h : Tree.sampleProject.write? ["src", "z.js"] bytes = some after)
    (hnodes : after.nodes = (["src", "z.js"], .file bytes) :: Tree.sampleProject.nodes) :
    IsScannable .standard after (Path.parse "src") := by
  have hfirst : Path.isTooLong ⟨.workingDirectory, ["src", "x.js"]⟩ = false := by cbv
  have hsecond : Path.isTooLong ⟨.workingDirectory, ["src", "y.ts"]⟩ = false := by cbv
  have hthird : Path.isTooLong ⟨.workingDirectory, ["src", "z.js"]⟩ = false := by cbv
  have hgrows := (Tree.addsFile_of_write? node?_sampleProject_new h).grows
  apply isScannable_sampleSources (hgrows.directory?_eq_some Tree.directory?_sampleSources)
  simp [Tree.nodesBelow, hnodes, Tree.sampleProject, hfirst, hsecond, hthird, Limits.standard]

theorem isScannable_of_longer_source (more : List UInt8) :
    IsScannable .standard (Tree.sampleProject.replace ["src", "x.js"]
      (Utf8.encode "import 'a'".toList ++ more)) (Path.parse "src") := by
  have hfirst : Path.isTooLong ⟨.workingDirectory, ["src", "x.js"]⟩ = false := by cbv
  have hsecond : Path.isTooLong ⟨.workingDirectory, ["src", "y.ts"]⟩ = false := by cbv
  have hgrows := Tree.grows_replace node?_sampleProject_first more
  apply isScannable_sampleSources (hgrows.directory?_eq_some Tree.directory?_sampleSources)
  simp [Tree.nodesBelow, Tree.replace, Tree.overwrite, Tree.sampleProject, hfirst, hsecond,
    Limits.standard]

theorem packageNames_of_new_source :
    packageNames (specifiersOfBytes (Utf8.encode "import 'b'".toList)) = ["b"] := by
  have htext : Text.unifyNewlines (Utf8.decodeLenient (Utf8.encode "import 'b'".toList)) =
      "import 'b'".toList := by
    rw [Utf8.decodeLenient, Utf8.pieces_encode]
    cbv
  have hbodies : bodies "import 'b'".toList = [['b']] := by
    rw [bodies_of_statement? (by decide : statement? "import 'b'".toList = some (['b'], [])),
      bodies_nil]
  simp only [specifiersOfBytes, specifiers, String.toList_ofList, htext, hbodies]
  cbv

/-- The sample project with one more source, and with one more statement in a source
that it has. -/
theorem packages_in_use_of_grown_sampleProject :
    Mode.sequential.HasWorkers ∧
    Tree.sampleProject.directory? (Path.parse "src") = .ok (some ["src"]) ∧
    (∃ after, Tree.sampleProject.node? ["src", "z.js"] = none ∧
      Tree.sampleProject.write? ["src", "z.js"] (Utf8.encode "import 'b'".toList) = some after ∧
      IsScannable .standard after (Path.parse "src") ∧
      Analysis.OnlyGainsUse .standard Tree.sampleProject after (Path.parse "src") .sequential ∧
      ∃ new, usedPackages .standard after (Path.parse "src") .sequential = .ok new ∧
        "b" ∈ new.value) ∧
    ∃ after, Tree.sampleProject.node? ["src", "x.js"] =
        some (.file (Utf8.encode "import 'a'".toList)) ∧
      Tree.sampleProject.write? ["src", "x.js"]
        (Utf8.encode "import 'a'".toList ++ Utf8.encode "import 'b'".toList) = some after ∧
      IsScannable .standard after (Path.parse "src") ∧
      Analysis.OnlyGainsUse .standard Tree.sampleProject after (Path.parse "src") .sequential := by
  have hmode : Mode.sequential.HasWorkers := trivial
  have hroot := Tree.directory?_sampleSources
  obtain ⟨hadded, hlonger⟩ := added_sources_keep_packages_in_use hmode hroot
  refine ⟨hmode, hroot, ?_, ?_⟩
  · have hnew := node?_sampleProject_new
    obtain ⟨after, hwrite, hnodes⟩ := exists_write?_sampleProject (by cbv) hnew
      (Utf8.encode "import 'b'".toList)
    have hadds := Tree.addsFile_of_write? hnew hwrite
    have hscan := isScannable_of_new_source hwrite hnodes
    obtain ⟨old, new, -, hused, hmem, hgains⟩ := hadded _ _ after hnew hwrite hscan
    have hsource : IsSourceAt after (Path.parse "src") ["src", "z.js"]
        (Utf8.encode "import 'b'".toList) :=
      ⟨["src"], ["z.js"], rfl, isSource_iff.mpr ⟨hadds.grows.directory?_eq_some hroot, by simp,
        (hadds.file_iff _ _).mpr (Or.inr ⟨rfl, rfl⟩), by cbv⟩⟩
    refine ⟨after, hnew, hwrite, hscan, hgains, new, hused, ?_⟩
    rw [hmem, packageNames_of_new_source]
    exact Or.inr ⟨hsource, List.mem_singleton_self _⟩
  · have hfile := node?_sampleProject_first
    have hwrite := Tree.write?_of_file hfile
      (Utf8.encode "import 'a'".toList ++ Utf8.encode "import 'b'".toList)
    have hscan := isScannable_of_longer_source (Utf8.encode "import 'b'".toList)
    obtain ⟨old, new, -, -, -, hgains⟩ := hlonger _ _ _ _ hfile hwrite hscan
    exact ⟨_, hfile, hwrite, hscan, hgains⟩

theorem isScannable_climbingPath (turns : Nat) (hshort : 7 * turns + 8 ≤ 4095) :
    IsScannable .standard Tree.sampleProject (climbingPath turns) := by
  have hroot : Tree.sampleProject.directory? (climbingPath turns) = .ok (some ["src"]) :=
    directory?_climbingPath turns rfl node?_sampleSources (by omega)
  have hjoin : ∀ name : String, name.utf8ByteSize ≤ 4 →
      ((climbingPath turns).join [name]).isTooLong = false := by
    intro name hname
    rw [Bool.eq_false_iff, Ne, isTooLong_climbingPath_join]
    omega
  refine isScannable_of_nodesBelow hroot ?_ ?_ ?_
  · intro segment hsegment
    rcases mem_climbing hsegment with rfl | rfl <;> decide
  · rw [Bool.eq_false_iff, Ne, isTooLong_climbingPath]
    omega
  · rw [Tree.nodesBelow_sampleSources]
    have hfirst := hjoin "x.js" (by decide)
    have hsecond := hjoin "y.ts" (by decide)
    simp [hfirst, hsecond, Limits.standard]

/-- A long way to the sources leaves room for the names that are there, but not for one
more: once a source with that name is added there are no packages in use any more, for
the scan has no result. -/
theorem not_usedPackages_of_added_source :
    Tree.sampleProject.directory? (Path.parse (climbingPath 583).text) = .ok (some ["src"]) ∧
      (∃ old, usedPackages .standard Tree.sampleProject
        (Path.parse (climbingPath 583).text) .sequential = .ok old) ∧
      ∃ after, Tree.sampleProject.node? ["src", "long-one.js"] = none ∧
        Tree.sampleProject.write? ["src", "long-one.js"] (Utf8.encode "import 'a'".toList) =
          some after ∧
        ∃ path, usedPackages .standard after (Path.parse (climbingPath 583).text) .sequential =
          .error (.inaccessible path .nameTooLong) := by
  rw [parse_climbingPath]
  have hroot : Tree.sampleProject.directory? (climbingPath 583) = .ok (some ["src"]) :=
    directory?_climbingPath 583 rfl node?_sampleSources (by decide)
  have hnew : Tree.sampleProject.node? ["src", "long-one.js"] = none := by
    simp [Tree.node?, Tree.sampleProject]
  obtain ⟨after, hwrite, hnodes⟩ := exists_write?_sampleProject (by cbv) hnew
    (Utf8.encode "import 'a'".toList)
  refine ⟨hroot, ?_, after, hnew, hwrite, ?_⟩
  · obtain ⟨sources, hsources⟩ := (isScannable_climbingPath 583 (by decide)).exists_files
    obtain ⟨old, hold, -⟩ := usedPackages_sequential hsources
    exact ⟨old, hold⟩
  · have hadds := Tree.addsFile_of_write? hnew hwrite
    have hfile : after.node? (["src"] ++ ["long-one.js"]) =
        some (.file (Utf8.encode "import 'a'".toList)) :=
      (hadds.file_iff _ _).mpr (Or.inr ⟨rfl, rfl⟩)
    have heligible : isEligible ["long-one.js"] = true := by cbv
    have hlong : ((climbingPath 583).join ["long-one.js"]).isTooLong = true := by
      rw [isTooLong_climbingPath_join]
      decide
    have hlater := hadds.grows.directory?_eq_some hroot
    have hshallow : IsShallow .standard after (climbingPath 583) := by
      apply isShallow_of_nodesBelow hlater
      simp [Tree.nodesBelow, hnodes, Tree.sampleProject, Limits.standard]
    obtain ⟨path, herror⟩ := files_of_overlong hlater hshallow (by simp) hfile (Or.inr heligible)
      hlong
    exact ⟨path, usedPackages_eq_error herror⟩

end Source

end DependencyAudit
