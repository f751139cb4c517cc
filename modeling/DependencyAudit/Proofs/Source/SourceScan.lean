import DependencyAudit.Proofs.Files.Changes
import DependencyAudit.Proofs.Files.PathText
import DependencyAudit.Proofs.Source.UsedPackages

/-!
# What a scan finds

A scan finds the sources below the directory that a path names, each once, in the order
of their segments, and every path it gives can be read.  The order in which the tree
lists its nodes does not show.  All this needs paths that are short enough to be asked
about, and directories that are not too deep: a small tree can be reached by a path so
long that its own sources cannot be asked about.
-/

namespace DependencyAudit.Source

variable {limits : Limits} {tree after : Tree} {root : Path} {location : Location}
variable {names : List String}

/-- The paths of the sources below the directory that a path names, each once, in the
order of their segments. -/
structure ListsSources (tree : Tree) (root : Path) (found : List Path) : Prop where
  mem_iff : ∀ file, file ∈ found ↔
    ∃ location names bytes, IsSource tree root location names bytes ∧ file = root.join names
  ascending : (found.map Path.segments).Pairwise (· < ·)

/-! ## Order -/

theorem pairwise_eligibleBelow (tree : Tree) (location : Location) :
    (eligibleBelow tree location).Pairwise (· < ·) :=
  Ascending.pairwise_ofList _

theorem pairwise_stops (limits : Limits) (tree : Tree) (root : Path) (location : Location) :
    (stops limits tree root location).Pairwise (· < ·) :=
  Ascending.pairwise_union (Ascending.pairwise_ofList _)

theorem pairwise_segments_join {below : List (List String)} (h : below.Pairwise (· < ·)) :
    ((below.map root.join).map Path.segments).Pairwise (· < ·) := by
  rw [List.map_map, List.pairwise_map]
  exact h.imp fun hlt => List.append_left_lt hlt

theorem listsSources_of_files {sources : Logged (List Path)}
    (h : files limits tree root = .ok sources) : ListsSources tree root sources.value := by
  refine ⟨fun file => mem_files h, ?_⟩
  rcases files_eq_ok h with ⟨-, hvalue⟩ | ⟨location, -, -, hvalue⟩
  · rw [hvalue]
    exact List.Pairwise.nil
  · rw [hvalue]
    exact pairwise_segments_join (pairwise_eligibleBelow tree location)

theorem eligibleBelow_congr (h : ∀ place, after.node? place = tree.node? place) :
    eligibleBelow after location = eligibleBelow tree location := by
  refine (pairwise_eligibleBelow after location).eq_of_mem_iff
    (pairwise_eligibleBelow tree location) ?_
  intro names
  simp only [mem_eligibleBelow, h]

theorem stops_congr (h : ∀ place, after.node? place = tree.node? place) :
    stops limits after root location = stops limits tree root location := by
  refine (pairwise_stops limits after root location).eq_of_mem_iff
    (pairwise_stops limits tree root location) ?_
  intro stop
  simp only [mem_stops, mem_overlongVisits, mem_deepDescents, h]

/-- A scan depends on what stands where, not on the order in which the tree lists it. -/
theorem files_of_perm (hnodes : after.nodes.Perm tree.nodes)
    (hdirectory : after.workingDirectory = tree.workingDirectory) :
    files limits after root = files limits tree root := by
  have hnode := Tree.node?_of_perm hnodes
  simp only [files, Tree.directory?_congr hnode hdirectory, eligibleBelow_congr hnode,
    stops_congr hnode]

/-! ## Every source is found -/

/-- The limits are exact: from a directory, a scan comes to an end just when it meets neither
a path that is too long nor a directory that is too deep. -/
theorem exists_files_iff (hroot : tree.directory? root = .ok (some location)) :
    (∃ sources, files limits tree root = .ok sources) ↔
      (∀ names node, names ≠ [] → tree.node? (location ++ names) = some node →
        node = .directory ∨ isEligible names = true → (root.join names).isTooLong = false) ∧
      ∀ names, tree.node? (location ++ names) = some .directory →
        names.length ≤ limits.directories := by
  rw [← overlongVisits_eq_nil_iff, ← deepDescents_eq_nil_iff, ← stops_eq_nil_iff]
  constructor
  · rintro ⟨sources, hsources⟩
    exact stops_of_files hroot hsources
  · intro hstops
    exact ⟨_, files_of_no_stops hroot hstops⟩

/-- A scan within the limits on lengths and on depth finds nothing when the path names no
directory, and otherwise exactly the sources below it, in order, and all of them can be
read.  The order of the tree does not matter. -/
theorem scan_finds_exactly_the_sources (h : IsScannable limits tree root) :
    ∃ sources, files limits tree root = .ok sources ∧
      ((∀ location, tree.directory? root ≠ .ok (some location)) → sources.value = []) ∧
      ListsSources tree root sources.value ∧
      (∀ location names bytes, IsSource tree root location names bytes →
        imports tree (root.join names) = .ok ⟨specifiersOfBytes bytes, []⟩) ∧
      ∀ other : Tree, other.nodes.Perm tree.nodes →
        other.workingDirectory = tree.workingDirectory → files limits other root = .ok sources := by
  obtain ⟨sources, hsources⟩ := h.exists_files
  refine ⟨sources, hsources, ?_, listsSources_of_files hsources,
    fun location names bytes hsource => imports_of_isSource hsources hsource, ?_⟩
  · intro hnone
    rcases files_eq_ok hsources with ⟨-, hvalue⟩ | ⟨location, hlocation, -, -⟩
    · exact hvalue
    · exact absurd hlocation (hnone location)
  · intro other hnodes hdirectory
    rw [files_of_perm hnodes hdirectory, hsources]

theorem scan_of_sampleProject :
    IsScannable .standard Tree.sampleProject (Path.parse "src") ∧
      ∃ sources, files .standard Tree.sampleProject (Path.parse "src") = .ok sources ∧
        ListsSources Tree.sampleProject (Path.parse "src") sources.value := by
  have hscan := isScannable_sampleProject
  obtain ⟨sources, hsources, -, hlists, -⟩ := scan_finds_exactly_the_sources hscan
  exact ⟨hscan, sources, hsources, hlists⟩

/-! ## A path too long to be asked about -/

/-- Where no directory is too deep, a path that is too long ends a scan. -/
theorem files_of_overlong {node : Node} (hroot : tree.directory? root = .ok (some location))
    (hshallow : IsShallow limits tree root) (hbelow : names ≠ [])
    (hnode : tree.node? (location ++ names) = some node)
    (hvisited : node = .directory ∨ isEligible names = true)
    (hlong : (root.join names).isTooLong = true) :
    ∃ path, files limits tree root = .error (.inaccessible path .nameTooLong) := by
  cases hstops : stops limits tree root location with
  | nil =>
      have hvisits := (stops_eq_nil_iff.mp hstops).1
      have hshort := overlongVisits_eq_nil_iff.mp hvisits names node hbelow hnode hvisited
      rw [hlong] at hshort
      contradiction
  | cons first others =>
      have hfirst : first ∈ stops limits tree root location := by
        rw [hstops]
        exact List.mem_cons_self
      have hvisit : first ∈ overlongVisits tree root location := by
        rw [mem_stops, hshallow.deepDescents_eq_nil hroot] at hfirst
        exact hfirst.resolve_right List.not_mem_nil
      obtain ⟨path, hpath⟩ := abortAt_of_mem_overlongVisits hvisit
      simp only [files, hroot, hstops, hpath]
      exact ⟨path, rfl⟩

/-- The way into a directory that goes in and out again a number of times before. -/
def climbing (turns : Nat) : List String :=
  (List.replicate turns ["src", ".."]).flatten ++ ["src"]

def climbingPath (turns : Nat) : Path := ⟨.workingDirectory, climbing turns⟩

theorem climbing_succ (turns : Nat) : climbing (turns + 1) = "src" :: ".." :: climbing turns := by
  simp [climbing, List.replicate_succ]

theorem climbing_ne_nil (turns : Nat) : climbing turns ≠ [] := by
  simp [climbing]

theorem mem_climbing {turns : Nat} {segment : String} (h : segment ∈ climbing turns) :
    segment = "src" ∨ segment = ".." := by
  induction turns with
  | zero => exact Or.inl (List.mem_singleton.mp h)
  | succ turns ih =>
      rw [climbing_succ, List.mem_cons, List.mem_cons] at h
      rcases h with rfl | rfl | h
      · exact Or.inl rfl
      · exact Or.inr rfl
      · exact ih h

theorem parse_climbingPath (turns : Nat) :
    Path.parse (climbingPath turns).text = climbingPath turns := by
  apply Path.parse_text
  intro segment hsegment
  have hproper : Path.isSegment "src" = true ∧ Path.isSegment ".." = true := by
    constructor <;> cbv
  rcases mem_climbing hsegment with rfl | rfl
  · exact ⟨hproper.1, by decide⟩
  · exact ⟨hproper.2, by decide⟩

theorem hasNull_climbingPath (turns : Nat) : (climbingPath turns).hasNull = false := by
  have hplain : "src".contains '\x00' = false ∧ "..".contains '\x00' = false := by
    constructor <;> cbv
  rw [Path.hasNull, List.any_eq_false]
  intro segment hsegment
  rcases mem_climbing hsegment with rfl | rfl
  · simp [hplain.1]
  · simp [hplain.2]

theorem size_climbing (turns : Nat) :
    ((climbing turns).map fun segment => segment.utf8ByteSize + 1).sum = 7 * turns + 4 := by
  induction turns with
  | zero => rfl
  | succ turns ih =>
      have hin : "src".utf8ByteSize = 3 := rfl
      have hout : "..".utf8ByteSize = 2 := rfl
      rw [climbing_succ, List.map_cons, List.map_cons, List.sum_cons, List.sum_cons, ih, hin, hout]
      omega

theorem isTooLong_climbingPath_append (turns : Nat) (names : List String) :
    ((climbingPath turns).join names).isTooLong = true ↔
      4095 < 7 * turns + 3 + (names.map fun name => name.utf8ByteSize + 1).sum := by
  have hjoin : (climbingPath turns).join names =
      ⟨.workingDirectory, climbing turns ++ names⟩ := rfl
  rw [hjoin, Path.isTooLong_iff (List.append_ne_nil_of_left_ne_nil (climbing_ne_nil turns) names),
    List.map_append, List.sum_append, size_climbing, Path.maxBytes]
  omega

theorem isTooLong_climbingPath (turns : Nat) :
    (climbingPath turns).isTooLong = true ↔ 4095 < 7 * turns + 3 := by
  simpa [Path.join] using isTooLong_climbingPath_append turns []

theorem isTooLong_climbingPath_join (turns : Nat) (name : String) :
    ((climbingPath turns).join [name]).isTooLong = true ↔
      4095 < 7 * turns + 4 + name.utf8ByteSize := by
  rw [isTooLong_climbingPath_append, List.map_singleton, List.sum_singleton]
  omega

theorem walk_climbing (h : tree.node? ["src"] = some .directory) (turns : Nat) :
    tree.walk [] (climbing turns) = .ok ["src"] := by
  have hin : ("src" = "..") = False := by simp
  have hshort : ¬ maxNameBytes < "src".utf8ByteSize := by decide
  induction turns with
  | zero => simp [climbing, Tree.walk, Tree.node?_nil, hshort, h]
  | succ turns ih =>
      rw [climbing_succ]
      simp only [Tree.walk, Tree.node?_nil, hin, if_false, if_neg hshort, List.nil_append, h,
        if_true, List.dropLast_singleton, ih]

theorem directory?_climbingPath (turns : Nat) (hroot : tree.workingDirectory = [])
    (h : tree.node? ["src"] = some .directory) (hshort : 7 * turns + 3 ≤ 4095) :
    tree.directory? (climbingPath turns) = .ok (some ["src"]) := by
  rw [Tree.directory?_eq_some_iff]
  refine ⟨hasNull_climbingPath turns, ?_, h⟩
  have hpath : ¬ (climbingPath turns).isTooLong = true := by
    rw [isTooLong_climbingPath]
    omega
  have hstart : tree.start (climbingPath turns) = [] := by
    simp [Tree.start, climbingPath, hroot]
  rw [Tree.locate, if_neg hpath, hstart]
  exact walk_climbing h turns

theorem node?_sampleSources : Tree.sampleProject.node? ["src"] = some .directory := by
  simp [Tree.node?, Tree.sampleProject]

theorem isSource_climbingPath (turns : Nat) (hshort : 7 * turns + 3 ≤ 4095) :
    IsSource Tree.sampleProject (climbingPath turns) ["src"] ["x.js"]
      (Utf8.encode "import 'a'".toList) := by
  rw [isSource_iff]
  refine ⟨directory?_climbingPath turns rfl node?_sampleSources hshort, by simp, ?_, by cbv⟩
  simp [Tree.node?, Tree.sampleProject]

theorem segments_climbingPath (turns : Nat) :
    ∀ segment ∈ (climbingPath turns).segments, segment.utf8ByteSize ≤ maxNameBytes := by
  intro segment hsegment
  rcases mem_climbing hsegment with rfl | rfl <;> decide

theorem files_climbingPath :
    ∃ path, files .standard Tree.sampleProject (climbingPath 584) =
      .error (.inaccessible path .nameTooLong) := by
  have hsource := isSource_climbingPath 584 (by decide)
  obtain ⟨hdirectory, hbelow, hfile, heligible⟩ := isSource_iff.mp hsource
  have hshallow : IsShallow .standard Tree.sampleProject (climbingPath 584) := by
    apply isShallow_of_nodesBelow hdirectory
    simp [Tree.nodesBelow_sampleSources, Limits.standard]
  refine files_of_overlong hdirectory hshallow hbelow hfile (Or.inr heligible) ?_
  rw [isTooLong_climbingPath_join]
  decide

/-- No segment of the root is long, the root names a directory, and there is a source in
it; but the path of that source is too long, and the scan ends without a result. -/
theorem not_scan_below_long_root :
    (∀ segment ∈ (Path.parse (climbingPath 584).text).segments,
        segment.utf8ByteSize ≤ maxNameBytes) ∧
      IsSource Tree.sampleProject (Path.parse (climbingPath 584).text) ["src"] ["x.js"]
        (Utf8.encode "import 'a'".toList) ∧
      ∃ path, files .standard Tree.sampleProject (Path.parse (climbingPath 584).text) =
        .error (.inaccessible path .nameTooLong) := by
  rw [parse_climbingPath]
  exact ⟨segments_climbingPath 584, isSource_climbingPath 584 (by decide), files_climbingPath⟩

end DependencyAudit.Source
