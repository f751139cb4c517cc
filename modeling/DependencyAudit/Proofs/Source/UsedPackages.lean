import DependencyAudit.Proofs.Files.Walk
import DependencyAudit.Proofs.Source.PoolRuns
import DependencyAudit.Source.Usage
import Mathlib.Data.List.Sort

/-!
# Packages in use, as a set

A source is described by what stands in the tree, and a package is in use when a
source imports from it.  A scan fails only for a path that is too long or a directory
that is too deep.  One that succeeds finds exactly the sources and can read each of
them, so collecting them one after the other does not fail, and both ways to collect
give the strictly ascending list of the packages in use.
-/

namespace DependencyAudit.Source

variable {limits : Limits} {tree : Tree} {root : Path} {location : Location}
variable {names : List String} {bytes : List UInt8} {sources : Logged (List Path)}

/-- A file strictly below the directory that a path names, by its location, that
has the suffix of a source, no hidden name on its way and is not excluded. -/
structure IsSource (tree : Tree) (root : Path) (location : Location)
    (names : List String) (bytes : List UInt8) : Prop where
  directory : tree.directory? root = .ok (some location)
  below : names ≠ []
  file : tree.node? (location ++ names) = some (.file bytes)
  suffix : Path.suffix (names.getLastD "") ∈ suffixes
  visible : ∀ name ∈ names, isHidden name = false
  included : isExcluded ("/".intercalate names) = false

/-- The package is imported by a source below the directory that a path names. -/
def IsUsed (tree : Tree) (root : Path) (name : String) : Prop :=
  ∃ location names bytes specifier, IsSource tree root location names bytes ∧
    specifier ∈ specifiersOfBytes bytes ∧ packageName? specifier = some name

theorem isEligible_iff :
    isEligible names = true ↔ Path.suffix (names.getLastD "") ∈ suffixes ∧
      (∀ name ∈ names, isHidden name = false) ∧
      isExcluded ("/".intercalate names) = false := by
  simp only [isEligible, Bool.and_eq_true, Bool.not_eq_true', List.contains_iff_mem,
    List.any_eq_false, Bool.not_eq_true, and_assoc]

theorem isSource_iff :
    IsSource tree root location names bytes ↔
      tree.directory? root = .ok (some location) ∧ names ≠ [] ∧
        tree.node? (location ++ names) = some (.file bytes) ∧ isEligible names = true := by
  rw [isEligible_iff]
  constructor
  · intro h
    exact ⟨h.directory, h.below, h.file, h.suffix, h.visible, h.included⟩
  · intro hexists
    obtain ⟨hdirectory, hbelow, hfile, hsuffix, hvisible, hincluded⟩ := hexists
    exact ⟨hdirectory, hbelow, hfile, hsuffix, hvisible, hincluded⟩

/-! ## The scan -/

theorem mem_eligibleBelow :
    names ∈ eligibleBelow tree location ↔
      ∃ bytes, names ≠ [] ∧ tree.node? (location ++ names) = some (.file bytes) ∧
        isEligible names = true := by
  unfold eligibleBelow
  rw [Ascending.mem_ofList, List.mem_filter, List.mem_map]
  constructor
  · intro hexists
    obtain ⟨⟨⟨place, bytes⟩, hmem, rfl⟩, heligible⟩ := hexists
    obtain ⟨hbelow, hfile⟩ := Tree.mem_filesBelow.mp hmem
    exact ⟨bytes, hbelow, hfile, heligible⟩
  · intro hexists
    obtain ⟨bytes, hbelow, hfile, heligible⟩ := hexists
    exact ⟨⟨_, Tree.mem_filesBelow.mpr ⟨hbelow, hfile⟩, rfl⟩, heligible⟩

theorem mem_overlongVisits {visit : List String} :
    visit ∈ overlongVisits tree root location ↔
      ∃ names node, names ≠ [] ∧ tree.node? (location ++ names) = some node ∧
        (root.join names).isTooLong = true ∧ visit? names node = some visit := by
  unfold overlongVisits
  rw [Ascending.mem_ofList, List.mem_filterMap]
  constructor
  · intro hexists
    obtain ⟨⟨place, node⟩, hmem, hvisit⟩ := hexists
    obtain ⟨hmem, hlong⟩ := List.mem_filter.mp hmem
    obtain ⟨hbelow, hnode⟩ := Tree.mem_nodesBelow.mp hmem
    exact ⟨place, node, hbelow, hnode, hlong, hvisit⟩
  · intro hexists
    obtain ⟨place, node, hbelow, hnode, hlong, hvisit⟩ := hexists
    exact ⟨(place, node), List.mem_filter.mpr ⟨Tree.mem_nodesBelow.mpr ⟨hbelow, hnode⟩, hlong⟩,
      hvisit⟩

theorem visit?_isSome_iff {node : Node} :
    (visit? names node).isSome = true ↔ isEligible names = true ∨ node = .directory := by
  unfold visit?
  split
  · simp [*]
  · split <;> simp [*]

/-- A scan has nothing too long to ask about exactly when every directory and every
entry that may be a source has a short enough path. -/
theorem overlongVisits_eq_nil_iff :
    overlongVisits tree root location = [] ↔
      ∀ names node, names ≠ [] → tree.node? (location ++ names) = some node →
        node = .directory ∨ isEligible names = true →
        (root.join names).isTooLong = false := by
  rw [List.eq_nil_iff_forall_not_mem]
  constructor
  · intro h names node hbelow hnode hvisited
    by_contra hlong
    rw [Bool.not_eq_false] at hlong
    obtain ⟨visit, hvisit⟩ := Option.isSome_iff_exists.mp (visit?_isSome_iff.mpr hvisited.symm)
    exact h visit (mem_overlongVisits.mpr ⟨names, node, hbelow, hnode, hlong, hvisit⟩)
  · intro h visit hmem
    obtain ⟨names, node, hbelow, hnode, hlong, hvisit⟩ := mem_overlongVisits.mp hmem
    have hvisited := visit?_isSome_iff.mp (Option.isSome_of_eq_some hvisit)
    rw [h names node hbelow hnode hvisited.symm] at hlong
    contradiction

theorem mem_deepDescents {stop : List String} :
    stop ∈ deepDescents limits tree location ↔
      ∃ names, tree.node? (location ++ names) = some .directory ∧
        limits.directories < names.length ∧ stop = names ++ [descentMark] := by
  unfold deepDescents
  rw [Ascending.mem_ofList, List.mem_map]
  constructor
  · intro hexists
    obtain ⟨⟨place, node⟩, hmem, rfl⟩ := hexists
    obtain ⟨hmem, hdeep⟩ := List.mem_filter.mp hmem
    rw [Bool.and_eq_true, decide_eq_true_eq, decide_eq_true_eq] at hdeep
    obtain ⟨rfl, hdeep⟩ := hdeep
    exact ⟨place, (Tree.mem_nodesBelow.mp hmem).2, hdeep, rfl⟩
  · intro hexists
    obtain ⟨place, hnode, hdeep, rfl⟩ := hexists
    have hbelow : place ≠ [] := List.ne_nil_of_length_pos (Nat.zero_lt_of_lt hdeep)
    refine ⟨(place, .directory), List.mem_filter.mpr ⟨?_, by simpa using hdeep⟩, rfl⟩
    exact Tree.mem_nodesBelow.mpr ⟨hbelow, hnode⟩

/-- A scan goes down nowhere too deep exactly when no directory lies too deep. -/
theorem deepDescents_eq_nil_iff :
    deepDescents limits tree location = [] ↔
      ∀ names, tree.node? (location ++ names) = some .directory →
        names.length ≤ limits.directories := by
  rw [List.eq_nil_iff_forall_not_mem]
  constructor
  · intro h names hnode
    by_contra hdeep
    exact h _ (mem_deepDescents.mpr ⟨names, hnode, Nat.not_le.mp hdeep, rfl⟩)
  · intro h stop hmem
    obtain ⟨names, hnode, hdeep, -⟩ := mem_deepDescents.mp hmem
    exact Nat.not_le.mpr hdeep (h names hnode)

theorem mem_stops {stop : List String} :
    stop ∈ stops limits tree root location ↔
      stop ∈ overlongVisits tree root location ∨ stop ∈ deepDescents limits tree location :=
  Ascending.mem_union

theorem stops_eq_nil_iff :
    stops limits tree root location = [] ↔
      overlongVisits tree root location = [] ∧ deepDescents limits tree location = [] := by
  simp only [List.eq_nil_iff_forall_not_mem, mem_stops, not_or, forall_and]

theorem files_eq_ok (h : files limits tree root = .ok sources) :
    (tree.directory? root = .ok none ∧ sources.value = []) ∨
      ∃ location, tree.directory? root = .ok (some location) ∧
        stops limits tree root location = [] ∧
        sources.value = (eligibleBelow tree location).map root.join := by
  unfold files at h
  split at h
  · contradiction
  · next hdirectory =>
      rw [Except.ok.injEq] at h
      subst h
      exact Or.inl ⟨hdirectory, rfl⟩
  · next location hdirectory =>
      split at h
      · next hstops =>
          rw [Except.ok.injEq] at h
          subst h
          exact Or.inr ⟨location, hdirectory, hstops, rfl⟩
      · contradiction

/-- A scan that nothing stops comes to an end. -/
theorem files_of_no_stops (hroot : tree.directory? root = .ok (some location))
    (hstops : stops limits tree root location = []) :
    files limits tree root = .ok ⟨(eligibleBelow tree location).map root.join, []⟩ := by
  simp only [files, hroot, hstops]

theorem stops_of_files (hroot : tree.directory? root = .ok (some location))
    (h : files limits tree root = .ok sources) : stops limits tree root location = [] := by
  rcases files_eq_ok h with ⟨hnone, -⟩ | ⟨other, hother, hstops, -⟩
  · rw [hroot] at hnone
    simp at hnone
  · rw [Tree.location_unique hroot hother]
    exact hstops

/-- Nothing that a scan from a path asks about is too long: no segment of the path, not
the path itself, and no directory below it or entry there that may be a source. -/
structure HasShortPaths (tree : Tree) (root : Path) : Prop where
  segments : ∀ segment ∈ root.segments, segment.utf8ByteSize ≤ maxNameBytes
  path : root.hasNull = false → root.isTooLong = false
  below : ∀ location names node, tree.directory? root = .ok (some location) → names ≠ [] →
    tree.node? (location ++ names) = some node →
    node = .directory ∨ isEligible names = true → (root.join names).isTooLong = false

/-- No directory below the one that a path names lies too deep for a scan. -/
def IsShallow (limits : Limits) (tree : Tree) (root : Path) : Prop :=
  ∀ location names, tree.directory? root = .ok (some location) →
    tree.node? (location ++ names) = some .directory → names.length ≤ limits.directories

theorem IsShallow.deepDescents_eq_nil (h : IsShallow limits tree root)
    (hroot : tree.directory? root = .ok (some location)) :
    deepDescents limits tree location = [] :=
  deepDescents_eq_nil_iff.mpr fun names => h location names hroot

theorem isShallow_of_nodesBelow (hroot : tree.directory? root = .ok (some location))
    (h : ∀ entry ∈ tree.nodesBelow location, entry.1.length ≤ limits.directories) :
    IsShallow limits tree root := by
  intro other names hother hnode
  cases Tree.location_unique hroot hother
  by_cases hnames : names = []
  · rw [hnames]
    exact Nat.zero_le _
  · exact h _ (Tree.mem_nodesBelow.mpr ⟨hnames, hnode⟩)

/-- A scan from a path meets neither a path that is too long nor a directory that is too
deep. -/
structure IsScannable (limits : Limits) (tree : Tree) (root : Path) : Prop
    extends HasShortPaths tree root where
  shallow : IsShallow limits tree root

theorem isScannable_of_nodesBelow (hroot : tree.directory? root = .ok (some location))
    (hsegments : ∀ segment ∈ root.segments, segment.utf8ByteSize ≤ maxNameBytes)
    (hpath : root.isTooLong = false)
    (hbelow : ∀ entry ∈ tree.nodesBelow location,
      (root.join entry.1).isTooLong = false ∧ entry.1.length ≤ limits.directories) :
    IsScannable limits tree root := by
  refine ⟨⟨hsegments, fun _ => hpath, ?_⟩, ?_⟩
  · intro other names node hother hnames hnode _
    cases Tree.location_unique hroot hother
    exact (hbelow _ (Tree.mem_nodesBelow.mpr ⟨hnames, hnode⟩)).1
  · exact isShallow_of_nodesBelow hroot fun entry hentry => (hbelow entry hentry).2

/-- The stop at an entry that is too long names that entry. -/
theorem abortAt_of_mem_overlongVisits {stop : List String}
    (h : stop ∈ overlongVisits tree root location) :
    ∃ path, abortAt root stop = .inaccessible path .nameTooLong := by
  obtain ⟨names, node, hbelow, hnode, -, hvisit⟩ := mem_overlongVisits.mp h
  obtain ⟨above, name, rfl⟩ := List.eq_nil_or_concat' names |>.resolve_left hbelow
  have hlast : stop.getLast? = some name := by
    unfold visit? at hvisit
    split at hvisit
    · rw [← Option.some.inj hvisit]
      simp
    · split at hvisit
      · rw [← Option.some.inj hvisit]
        simp
      · contradiction
  -- The mark of a descent has a null character, so no entry has it for a name.
  have hmark : isFileName descentMark = false := by cbv
  have hname : isFileName name = true := Tree.isFileName_of_node? hnode name (by simp)
  have hne : stop.getLast? ≠ some descentMark := by
    rw [hlast, Ne, Option.some.injEq]
    rintro rfl
    rw [hmark] at hname
    contradiction
  exact ⟨_, if_neg hne⟩

theorem abortAt_of_mem_deepDescents {stop : List String}
    (h : stop ∈ deepDescents limits tree location) : abortAt root stop = .scanTooDeep := by
  obtain ⟨names, -, -, rfl⟩ := mem_deepDescents.mp h
  exact if_pos List.getLast?_concat

/-- A scan without a result met a directory that is too deep, or a path that is too long. -/
theorem files_eq_error {abort : Abort} (h : files limits tree root = .error abort) :
    (abort = .scanTooDeep ∧ ¬ IsShallow limits tree root) ∨
      ((∃ path, abort = .inaccessible path .nameTooLong) ∧ ¬ HasShortPaths tree root) := by
  unfold files at h
  split at h
  · next error hdirectory =>
      obtain ⟨rfl, -⟩ := Tree.directory?_eq_error_iff.mp hdirectory
      refine Or.inr ⟨⟨root, (Except.error.inj h).symm⟩, fun hshort => ?_⟩
      exact Tree.directory?_ne_error hshort.segments hshort.path _ hdirectory
  · contradiction
  · next location hdirectory =>
      split at h
      · contradiction
      · next first others hstops =>
          rw [← Except.error.inj h]
          have hfirst : first ∈ stops limits tree root location := by
            rw [hstops]
            exact List.mem_cons_self
          rcases mem_stops.mp hfirst with hvisit | hdescent
          · refine Or.inr ⟨abortAt_of_mem_overlongVisits hvisit, fun hshort => ?_⟩
            have hnone : overlongVisits tree root location = [] :=
              overlongVisits_eq_nil_iff.mpr fun names node =>
                hshort.below location names node hdirectory
            rw [hnone] at hvisit
            contradiction
          · refine Or.inl ⟨abortAt_of_mem_deepDescents hdescent, fun hshallow => ?_⟩
            rw [hshallow.deepDescents_eq_nil hdirectory] at hdescent
            contradiction

theorem IsScannable.exists_files (h : IsScannable limits tree root) :
    ∃ sources, files limits tree root = .ok sources := by
  cases hfiles : files limits tree root with
  | ok sources => exact ⟨sources, rfl⟩
  | error abort =>
      rcases files_eq_error hfiles with ⟨-, hdeep⟩ | ⟨-, hlong⟩
      · exact absurd h.shallow hdeep
      · exact absurd h.toHasShortPaths hlong

/-- A scan that succeeds finds the sources and nothing else. -/
theorem mem_files (h : files limits tree root = .ok sources) {file : Path} :
    file ∈ sources.value ↔
      ∃ location names bytes, IsSource tree root location names bytes ∧
        file = root.join names := by
  rcases files_eq_ok h with ⟨hdirectory, hvalue⟩ | ⟨location, hdirectory, hvisits, hvalue⟩
  · rw [hvalue]
    constructor
    · intro hmem
      contradiction
    · intro hexists
      obtain ⟨location, names, bytes, hsource, hfile⟩ := hexists
      have hother := hsource.directory
      rw [hdirectory] at hother
      simp at hother
  · rw [hvalue, List.mem_map]
    constructor
    · intro hexists
      obtain ⟨names, hmem, rfl⟩ := hexists
      obtain ⟨bytes, hbelow, hfile, heligible⟩ := mem_eligibleBelow.mp hmem
      exact ⟨location, names, bytes, isSource_iff.mpr ⟨hdirectory, hbelow, hfile, heligible⟩,
        rfl⟩
    · intro hexists
      obtain ⟨other, names, bytes, hsource, rfl⟩ := hexists
      obtain ⟨hother, hbelow, hfile, heligible⟩ := isSource_iff.mp hsource
      cases Tree.location_unique hdirectory hother
      exact ⟨names, mem_eligibleBelow.mpr ⟨bytes, hbelow, hfile, heligible⟩, rfl⟩

theorem imports_of_isSource (h : files limits tree root = .ok sources)
    (hsource : IsSource tree root location names bytes) :
    imports tree (root.join names) = .ok ⟨specifiersOfBytes bytes, []⟩ := by
  obtain ⟨hdirectory, hbelow, hfile, heligible⟩ := isSource_iff.mp hsource
  -- The scan asked about this path, and it came to an end.
  have hshort : (root.join names).isTooLong = false :=
    overlongVisits_eq_nil_iff.mp (stops_eq_nil_iff.mp (stops_of_files hdirectory h)).1 names _
      hbelow hfile (Or.inr heligible)
  simp only [imports, Tree.read_join hdirectory hshort hfile]

theorem importedPackages_of_isSource (h : files limits tree root = .ok sources)
    (hsource : IsSource tree root location names bytes) :
    importedPackages tree (root.join names) =
      .ok ⟨packageNames (specifiersOfBytes bytes), []⟩ := by
  simp only [importedPackages, imports_of_isSource h hsource]

/-! ## Collecting -/

theorem collect_eq_ok {files : List Path}
    (h : ∀ file ∈ files, ∃ found, importedPackages tree file = .ok found) :
    ∃ used, collect tree files = .ok used ∧ used.value.Pairwise (· < ·) ∧
      ∀ name, name ∈ used.value ↔
        ∃ file ∈ files, name ∈ (workerResult tree file).value := by
  induction files with
  | nil => exact ⟨⟨[], []⟩, rfl, List.Pairwise.nil, by simp⟩
  | cons file rest ih =>
      obtain ⟨first, hfirst⟩ := h file (List.mem_cons_self ..)
      obtain ⟨others, hothers, hascending, hmem⟩ :=
        ih fun other hother => h other (List.mem_cons_of_mem file hother)
      have hworker : workerResult tree file = first := by
        simp only [workerResult, hfirst]
      have hcollect : collect tree (file :: rest) = .ok
          ⟨Ascending.union first.value others.value, first.events ++ others.events⟩ := by
        simp only [collect, hfirst, hothers]
      refine ⟨_, hcollect, Ascending.pairwise_union hascending, ?_⟩
      intro name
      rw [Ascending.mem_union, hmem name, List.exists_mem_cons_iff, hworker]

theorem exists_workerResult_iff (h : files limits tree root = .ok sources) {name : String} :
    (∃ file ∈ sources.value, name ∈ (workerResult tree file).value) ↔
      IsUsed tree root name := by
  constructor
  · intro hexists
    obtain ⟨file, hmem, hname⟩ := hexists
    obtain ⟨location, names, bytes, hsource, rfl⟩ := (mem_files h).mp hmem
    simp only [workerResult, importedPackages_of_isSource h hsource, packageNames,
      List.mem_filterMap] at hname
    obtain ⟨specifier, hspecifier, hpackage⟩ := hname
    exact ⟨location, names, bytes, specifier, hsource, hspecifier, hpackage⟩
  · intro hexists
    obtain ⟨location, names, bytes, specifier, hsource, hspecifier, hpackage⟩ := hexists
    refine ⟨root.join names, (mem_files h).mpr ⟨location, names, bytes, hsource, rfl⟩, ?_⟩
    simp only [workerResult, importedPackages_of_isSource h hsource, packageNames,
      List.mem_filterMap]
    exact ⟨specifier, hspecifier, hpackage⟩

/-- A list of the packages in use, each once, in ascending order. -/
structure ListsUsed (tree : Tree) (root : Path) (used : List String) : Prop where
  ascending : used.Pairwise (· < ·)
  mem_iff : ∀ name, name ∈ used ↔ IsUsed tree root name

theorem ListsUsed.unique {used other : List String} (h : ListsUsed tree root used)
    (hother : ListsUsed tree root other) : used = other := by
  refine h.ascending.eq_of_mem_iff hother.ascending ?_
  intro name
  rw [h.mem_iff, hother.mem_iff]

theorem listsUsed_of_run {workers : Nat} {final : Pool Path}
    (h : files limits tree root = .ok sources)
    (hrun : Relation.ReflTransGen (Pool.Step fun file => (workerResult tree file).value)
      { workers, waiting := sources.value } final)
    (hcomplete : final.IsComplete) : ListsUsed tree root final.merged := by
  refine ⟨Pool.pairwise_merged_of_run hrun, ?_⟩
  intro name
  rw [Pool.mem_merged_of_run hrun hcomplete, exists_workerResult_iff h]

theorem usedPackages_sequential (h : files limits tree root = .ok sources) :
    ∃ used, usedPackages limits tree root .sequential = .ok used ∧
      ListsUsed tree root used.value := by
  have hreadable : ∀ file ∈ sources.value, ∃ found, importedPackages tree file = .ok found := by
    intro file hmem
    obtain ⟨location, names, bytes, hsource, rfl⟩ := (mem_files h).mp hmem
    exact ⟨_, importedPackages_of_isSource h hsource⟩
  obtain ⟨used, hused, hascending, hmem⟩ := collect_eq_ok hreadable
  simp only [usedPackages, h, hused]
  refine ⟨_, rfl, hascending, ?_⟩
  intro name
  rw [hmem name, exists_workerResult_iff h]

theorem usedPackages_parallel {workers : Int} (hworkers : 1 ≤ workers)
    (h : files limits tree root = .ok sources) :
    ∃ used, usedPackages limits tree root (.parallel workers) = .ok used ∧
      ListsUsed tree root used.value := by
  have hsome : ¬ workers < 1 := by omega
  simp only [usedPackages, h, if_neg hsome]
  refine ⟨_, rfl, ?_⟩
  exact listsUsed_of_run h (Pool.run_drain _) (Pool.isComplete_drain (by simp only; omega))

def Mode.HasWorkers : Mode → Prop
  | .sequential => True
  | .parallel workers => 1 ≤ workers

theorem usedPackages_eq_ok {mode : Mode} (hmode : mode.HasWorkers)
    (h : files limits tree root = .ok sources) :
    ∃ used, usedPackages limits tree root mode = .ok used ∧ ListsUsed tree root used.value := by
  cases mode with
  | sequential => exact usedPackages_sequential h
  | parallel workers => exact usedPackages_parallel hmode h

theorem usedPackages_eq_error {mode : Mode} {abort : Abort}
    (h : files limits tree root = .error abort) :
    usedPackages limits tree root mode = .error abort := by
  simp only [usedPackages, h]

/-- Whatever the mode, what comes out is the list of the packages in use. -/
theorem listsUsed_of_usedPackages {mode : Mode} {used : Logged (List String)}
    (h : usedPackages limits tree root mode = .ok used) : ListsUsed tree root used.value := by
  cases hfiles : files limits tree root with
  | error abort =>
      rw [usedPackages_eq_error hfiles] at h
      contradiction
  | ok sources =>
      have hmode : mode.HasWorkers := by
        cases mode with
        | sequential => trivial
        | parallel workers =>
            by_contra hnone
            have hfew : workers < 1 := Int.not_le.mp hnone
            simp only [usedPackages, hfiles, if_pos hfew] at h
            contradiction
      rcases usedPackages_eq_ok hmode hfiles with ⟨found, hfound, hlists⟩
      rw [hfound, Except.ok.injEq] at h
      exact h ▸ hlists

/-! ## A small project -/

theorem isScannable_sampleSources (hroot : tree.directory? (Path.parse "src") = .ok (some ["src"]))
    (h : ∀ entry ∈ tree.nodesBelow ["src"],
      Path.isTooLong ⟨.workingDirectory, "src" :: entry.1⟩ = false ∧
        entry.1.length ≤ limits.directories) :
    IsScannable limits tree (Path.parse "src") := by
  have hshort : Path.isTooLong ⟨.workingDirectory, ["src"]⟩ = false := by cbv
  rw [Tree.parse_sources] at hroot ⊢
  refine isScannable_of_nodesBelow hroot ?_ hshort h
  intro segment hsegment
  rw [List.mem_singleton] at hsegment
  rw [hsegment]
  decide

theorem isScannable_sampleProject :
    IsScannable .standard Tree.sampleProject (Path.parse "src") := by
  have hfirst : Path.isTooLong ⟨.workingDirectory, ["src", "x.js"]⟩ = false := by cbv
  have hsecond : Path.isTooLong ⟨.workingDirectory, ["src", "y.ts"]⟩ = false := by cbv
  apply isScannable_sampleSources Tree.directory?_sampleSources
  rw [Tree.nodesBelow_sampleSources]
  simp [hfirst, hsecond, Limits.standard]

end DependencyAudit.Source
