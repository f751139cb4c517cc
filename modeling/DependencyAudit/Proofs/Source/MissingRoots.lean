import DependencyAudit.Analysis
import DependencyAudit.Proofs.Files.PathText
import DependencyAudit.Proofs.Manifest.DeclaredNames
import DependencyAudit.Proofs.Source.UsedPackages

/-!
# Roots that are no directories

A path may fail to name a directory for many reasons: a name is missing, a file stands at
its end or on its way, it holds a null character.  Then there are no sources, nothing is
used, and every name that is checked is unused.  The one exception is a path that is too
long, or that looks up a name that is too long in a directory: of such a path the system
does not say that there is no directory, and the scan ends without a result.
-/

namespace DependencyAudit.Source

variable {limits : Limits} {tree : Tree} {root : Path} {mode : Mode}

/-- What an analysis finds when no package is in use: every name that is checked, once and in
order, and nothing misplaced. -/
structure FindsAllUnused (manifest : Manifest) (checkAll : Bool) (analysis : Analysis) :
    Prop where
  ascending : analysis.unused.Pairwise (· < ·)
  mem_unused : ∀ name, name ∈ analysis.unused ↔
    ∃ cls, (cls = .production ∨ checkAll = true) ∧ name ∈ manifest.names cls
  misplaced : analysis.misplaced = []

theorem findsAllUnused_ofManifest (manifest : Manifest) (checkAll : Bool) :
    FindsAllUnused manifest checkAll (Analysis.ofManifest manifest [] checkAll) := by
  refine ⟨Ascending.pairwise_ofList _, ?_, ?_⟩
  · intro name
    rw [Analysis.ofManifest, Analysis.mem_unusedNames, Manifest.mem_declared]
    simp
  · rw [List.eq_nil_iff_forall_not_mem]
    intro name
    rw [Analysis.ofManifest, Analysis.mem_misplacedNames]
    simp

/-! ## The scan -/

theorem files_of_no_directory (hroot : ¬ tree.NamesDirectory root)
    (hshort : ¬ tree.IsOverlong root) : files limits tree root = .ok ⟨[], [.missingRoot root]⟩ := by
  cases hdirectory : tree.directory? root with
  | error error => exact absurd (Tree.directory?_eq_error_iff.mp hdirectory).2 hshort
  | ok found =>
      cases found with
      | none => simp only [files, hdirectory]
      | some location => exact absurd ⟨location, Tree.directory?_eq_some_iff.mp hdirectory⟩ hroot

theorem files_of_overlong_root (hlong : tree.IsOverlong root) :
    files limits tree root = .error (.inaccessible root .nameTooLong) := by
  have hdirectory : tree.directory? root = .error .nameTooLong :=
    Tree.directory?_eq_error_iff.mpr ⟨rfl, hlong⟩
  simp only [files, hdirectory]

theorem usedPackages_of_no_files {events : List Event} (hmode : mode.HasWorkers)
    (h : files limits tree root = .ok ⟨[], events⟩) :
    ∃ events, usedPackages limits tree root mode = .ok ⟨[], events⟩ := by
  obtain ⟨used, hused, hlists⟩ := usedPackages_eq_ok hmode h
  have hnone : ListsUsed tree root [] := by
    refine ⟨List.Pairwise.nil, ?_⟩
    intro name
    rw [← exists_workerResult_iff h]
    simp
  obtain ⟨value, events⟩ := used
  obtain rfl : value = [] := hlists.unique hnone
  exact ⟨events, hused⟩

/-! ## The analysis -/

theorem ofSources_of_overlong_root (hlong : tree.IsOverlong root) (manifest : Manifest)
    (checkAll : Bool) (mode : Mode) :
    Analysis.ofSources limits tree manifest root checkAll mode =
      .error (.inaccessible root .nameTooLong) := by
  simp only [Analysis.ofSources, usedPackages_eq_error (files_of_overlong_root hlong)]

/-- From a root that is no directory nothing is used: the scan finds no source and the analysis
finds every name that is checked unused.  It is otherwise only for a root that is too long or
has a name that is too long; then neither has a result. -/
theorem outcome_of_no_directory (hmode : mode.HasWorkers) (hroot : ¬ tree.NamesDirectory root)
    (limits : Limits) (manifest : Manifest) (checkAll : Bool) :
    (¬ tree.IsOverlong root →
      files limits tree root = .ok ⟨[], [.missingRoot root]⟩ ∧
      ∃ analysis events, Analysis.ofSources limits tree manifest root checkAll mode =
          .ok ⟨analysis, events⟩ ∧
        FindsAllUnused manifest checkAll analysis) ∧
    (tree.IsOverlong root →
      files limits tree root = .error (.inaccessible root .nameTooLong) ∧
      Analysis.ofSources limits tree manifest root checkAll mode =
        .error (.inaccessible root .nameTooLong)) := by
  constructor
  · intro hshort
    have hfiles : files limits tree root = .ok ⟨[], [.missingRoot root]⟩ :=
      files_of_no_directory hroot hshort
    obtain ⟨events, hused⟩ := usedPackages_of_no_files hmode hfiles
    refine ⟨hfiles, _, events, ?_, findsAllUnused_ofManifest manifest checkAll⟩
    simp only [Analysis.ofSources, hused, List.map_nil]
  · intro hlong
    exact ⟨files_of_overlong_root hlong, ofSources_of_overlong_root hlong manifest checkAll mode⟩

/-- A place below a file, audited by two workers. -/
theorem outcome_below_file :
    (Mode.parallel 2).HasWorkers ∧ ¬ Tree.sampleProject.NamesDirectory (Path.parse "src/x.js/y") ∧
      ¬ Tree.sampleProject.IsOverlong (Path.parse "src/x.js/y") ∧
      files .standard Tree.sampleProject (Path.parse "src/x.js/y") =
        .ok ⟨[], [.missingRoot (Path.parse "src/x.js/y")]⟩ ∧
      ∃ analysis events, Analysis.ofSources .standard Tree.sampleProject
          { dependencies := some (Mapping.ofMembers [("b", .null), ("a", .null)]) }
          (Path.parse "src/x.js/y") true (.parallel 2) = .ok ⟨analysis, events⟩ ∧
        FindsAllUnused { dependencies := some (Mapping.ofMembers [("b", .null), ("a", .null)]) }
          true analysis := by
  have hmode : (Mode.parallel 2).HasWorkers := by
    simp [Mode.HasWorkers]
  have hlocate : Tree.sampleProject.locate (Path.parse "src/x.js/y") = .error .notDirectory := by
    decide +kernel
  have hroot : ¬ Tree.sampleProject.NamesDirectory (Path.parse "src/x.js/y") := by
    rintro ⟨location, -, hfound, -⟩
    rw [hlocate] at hfound
    contradiction
  have hshort : ¬ Tree.sampleProject.IsOverlong (Path.parse "src/x.js/y") := by
    rintro ⟨-, hlong⟩
    rw [← Tree.locate_eq_nameTooLong_iff, hlocate] at hlong
    contradiction
  have houtcome := (outcome_of_no_directory hmode hroot .standard
    { dependencies := some (Mapping.ofMembers [("b", .null), ("a", .null)]) } true).1 hshort
  exact ⟨hmode, hroot, hshort, houtcome⟩

/-! ## A name that is too long -/

theorem isOverlong_of_long_name {name : String} (hnull : '\x00' ∉ name.toList)
    (hlong : maxNameBytes < name.utf8ByteSize) : tree.IsOverlong ⟨.workingDirectory, [name]⟩ := by
  have hstart : tree.node? (tree.start ⟨.workingDirectory, [name]⟩) = some .directory :=
    tree.node?_workingDirectory
  refine ⟨?_, Or.inr ⟨[], name, [], _, rfl, rfl, hstart, hlong⟩⟩
  simp [Path.hasNull, String.contains_char_eq, hnull]

/-- A name of one letter, repeated. -/
def longName (length : Nat) : String := String.ofList (List.replicate length 'a')

theorem not_mem_longName {c : Char} (h : c ≠ 'a') (length : Nat) :
    c ∉ (longName length).toList := by
  rw [longName, String.toList_ofList, List.mem_replicate]
  exact fun hmem => h hmem.2

theorem utf8ByteSize_longName (length : Nat) : (longName length).utf8ByteSize = length := by
  rw [longName, String.utf8ByteSize_ofList]
  induction length with
  | zero => rfl
  | succ length ih =>
      have hsize : 'a'.utf8Size = 1 := rfl
      rw [List.replicate_succ, String.utf8Len_cons, ih, hsize]

theorem parse_longName {length : Nat} (hlength : length ≠ 0) :
    Path.parse (longName length) = ⟨.workingDirectory, [longName length]⟩ := by
  have htext : Path.text ⟨.workingDirectory, [longName length]⟩ = longName length := by
    simp [Path.text, Path.anchorText]
  have hmem : 'a' ∈ (longName length).toList := by
    rw [longName, String.toList_ofList, List.mem_replicate]
    exact ⟨hlength, rfl⟩
  have hsegment : Path.isSegment (longName length) = true := by
    have hother : ∀ text : String, 'a' ∉ text.toList → longName length ≠ text := by
      rintro text htext rfl
      exact htext hmem
    simp [Path.isSegment, hother "" (by decide), hother "." (by decide)]
  have hparse : Path.parse (Path.text ⟨.workingDirectory, [longName length]⟩) =
      ⟨.workingDirectory, [longName length]⟩ := by
    refine Path.parse_text ?_
    intro segment hsegments
    rw [List.mem_singleton.mp hsegments]
    exact ⟨hsegment, not_mem_longName (by decide) length⟩
  rwa [htext] at hparse

/-- No file can have the name, so it names no directory; yet there is neither an empty scan nor
an analysis. -/
theorem no_outcome_of_long_name :
    ¬ Tree.sampleProject.NamesDirectory (Path.parse (longName 256)) ∧
      files .standard Tree.sampleProject (Path.parse (longName 256)) =
        .error (.inaccessible (Path.parse (longName 256)) .nameTooLong) ∧
      Analysis.ofSources .standard Tree.sampleProject {} (Path.parse (longName 256)) false
          .sequential =
        .error (.inaccessible (Path.parse (longName 256)) .nameTooLong) := by
  have hsize : maxNameBytes < (longName 256).utf8ByteSize := by
    rw [utf8ByteSize_longName, maxNameBytes]
    omega
  have hlong : Tree.sampleProject.IsOverlong (Path.parse (longName 256)) := by
    rw [parse_longName (by decide)]
    exact isOverlong_of_long_name (not_mem_longName (by decide) 256) hsize
  exact ⟨hlong.not_namesDirectory, files_of_overlong_root hlong,
    ofSources_of_overlong_root hlong {} false .sequential⟩

end DependencyAudit.Source
