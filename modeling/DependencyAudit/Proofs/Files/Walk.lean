import DependencyAudit.Files.Access
import DependencyAudit.Proofs.Text.Utf8Encoding
import Mathlib

/-!
# Walking a file tree

The promises of a tree are turned into statements about what stands at its
locations: a node has the one entry that lists it, its names are file names, and
every location above it is a directory.  So a walk along the names of a node
arrives there, and a path that goes on from a directory by these names can be
read.
-/

namespace DependencyAudit.Tree

variable {tree : Tree} {location : Location} {names : List String}

theorem node?_nil (tree : Tree) : tree.node? [] = some .directory := by
  simp [node?]

theorem node?_of_mem {node : Node} (h : (location, node) ∈ tree.nodes) :
    tree.node? location = some node := by
  have hnamed := (tree.named _ h).1
  cases hfound : tree.node? location with
  | none =>
      have hlisted : location ∈ tree.nodes.map Prod.fst := List.mem_map.mpr ⟨_, h, rfl⟩
      exact absurd hlisted (not_mem_of_node?_none hfound)
  | some other =>
      rcases mem_of_node? hfound with ⟨hroot, hdirectory⟩ | hother
      · exact absurd hroot hnamed
      · -- Both entries list the location, and no location is listed twice.
        have hentry := List.inj_on_of_nodup_map tree.unique hother h rfl
        rw [(Prod.mk.inj hentry).2]

theorem isFileName_of_node? {node : Node} (h : tree.node? location = some node) :
    ∀ name ∈ location, isFileName name = true := by
  rcases mem_of_node? h with ⟨rfl, hnode⟩ | hmem
  · simp
  · exact (tree.named _ hmem).2

theorem directory_above {name : String} {node : Node}
    (h : tree.node? (location ++ [name]) = some node) :
    tree.node? location = some .directory := by
  rcases mem_of_node? h with ⟨hroot, hnode⟩ | hmem
  · simp at hroot
  · have hclosed := tree.closed _ hmem
    rw [List.dropLast_concat] at hclosed
    rcases hclosed with rfl | hparent
    · exact node?_nil tree
    · exact node?_of_mem hparent

theorem directory_of_append {node : Node} (hnames : names ≠ [])
    (h : tree.node? (location ++ names) = some node) :
    tree.node? location = some .directory := by
  induction names generalizing location with
  | nil => contradiction
  | cons name rest ih =>
      by_cases hrest : rest = []
      · subst hrest
        exact directory_above h
      · have hnext : tree.node? (location ++ [name] ++ rest) = some node := by
          rw [List.append_assoc]
          exact h
        exact directory_above (ih hrest hnext)

/-! ## Walks -/

theorem walk_append (tree : Tree) (location : Location) (first second : List String) :
    tree.walk location (first ++ second) =
      (tree.walk location first).bind fun place => tree.walk place second := by
  induction first generalizing location with
  | nil => rfl
  | cons name rest ih =>
      simp only [List.cons_append, walk]
      split
      · split
        · exact ih _
        · split
          · rfl
          · split
            · rfl
            · exact ih _
      · rfl

theorem walk_names {node : Node} (h : tree.node? (location ++ names) = some node) :
    tree.walk location names = .ok (location ++ names) := by
  induction names generalizing location with
  | nil => simp [walk]
  | cons name rest ih =>
      have hnext : tree.node? (location ++ [name] ++ rest) = some node := by
        rw [List.append_assoc]
        exact h
      have hdirectory : tree.node? location = some .directory :=
        directory_of_append (List.cons_ne_nil name rest) h
      have hname : isFileName name = true := isFileName_of_node? h name (by simp)
      have hnotUp : name ≠ ".." := by
        intro heq
        simp [isFileName, heq] at hname
      have hshort : ¬ maxNameBytes < name.utf8ByteSize := by
        simp only [isFileName, Bool.and_eq_true, decide_eq_true_eq] at hname
        omega
      -- Only the last name may lead to a file.
      have hhere : ∃ found, tree.node? (location ++ [name]) = some found := by
        by_cases hrest : rest = []
        · subst hrest
          exact ⟨node, h⟩
        · exact ⟨.directory, directory_of_append hrest hnext⟩
      obtain ⟨found, hfound⟩ := hhere
      simp only [walk, hdirectory, if_neg hnotUp, if_neg hshort, hfound]
      rw [ih hnext, List.append_assoc]
      rfl

/-- Along segments a name that is too long is looked up in a directory. -/
def MeetsLongName (tree : Tree) (location : Location) (segments : List String) : Prop :=
  ∃ before name after place, segments = before ++ name :: after ∧
    tree.walk location before = .ok place ∧ tree.node? place = some .directory ∧
    maxNameBytes < name.utf8ByteSize

theorem ne_parent_of_long {name : String} (h : maxNameBytes < name.utf8ByteSize) :
    name ≠ ".." := by
  rintro rfl
  exact absurd h (by decide)

theorem MeetsLongName.cons {name : String} {rest : List String} {place : Location}
    (hname : tree.walk location [name] = .ok place) (h : tree.MeetsLongName place rest) :
    tree.MeetsLongName location (name :: rest) := by
  obtain ⟨before, long, after, reached, rfl, hwalk, hdirectory, hlong⟩ := h
  refine ⟨name :: before, long, after, reached, rfl, ?_, hdirectory, hlong⟩
  rw [← List.singleton_append, walk_append, hname]
  exact hwalk

/-- A walk ends at a name that is too long exactly when it meets one. -/
theorem walk_eq_nameTooLong_iff {segments : List String} :
    tree.walk location segments = .error .nameTooLong ↔ tree.MeetsLongName location segments := by
  constructor
  · intro h
    induction segments generalizing location with
    | nil => simp [walk] at h
    | cons segment rest ih =>
        have hstep := walk_append tree location [segment] rest
        rw [List.singleton_append, h] at hstep
        cases hsegment : tree.walk location [segment] with
        | ok place =>
            rw [hsegment] at hstep
            exact (ih hstep.symm).cons hsegment
        | error error =>
            rw [hsegment] at hstep
            obtain rfl : error = .nameTooLong := (Except.error.inj hstep).symm
            simp only [walk] at hsegment
            split at hsegment
            · next hdirectory =>
                split at hsegment
                · contradiction
                · split at hsegment
                  · next hlong => exact ⟨[], segment, rest, location, rfl, rfl, hdirectory, hlong⟩
                  · split at hsegment <;> simp at hsegment
            · simp at hsegment
  · rintro ⟨before, name, after, place, rfl, hwalk, hdirectory, hlong⟩
    rw [walk_append, hwalk]
    simp only [Except.bind, walk, hdirectory, if_neg (ne_parent_of_long hlong), if_pos hlong]

theorem walk_ne_nameTooLong {segments : List String}
    (h : ∀ segment ∈ segments, segment.utf8ByteSize ≤ maxNameBytes) :
    tree.walk location segments ≠ .error .nameTooLong := by
  rw [Ne, walk_eq_nameTooLong_iff]
  rintro ⟨before, name, after, place, rfl, -, -, hlong⟩
  have hshort := h name (by simp)
  omega

/-! ## Directories -/

/-- The path is too long to be followed, or a name on its way is. -/
def IsOverlong (tree : Tree) (path : Path) : Prop :=
  path.hasNull = false ∧
    (path.isTooLong = true ∨ tree.MeetsLongName (tree.start path) path.segments)

theorem locate_eq_nameTooLong_iff {path : Path} :
    tree.locate path = .error .nameTooLong ↔
      path.isTooLong = true ∨ tree.MeetsLongName (tree.start path) path.segments := by
  unfold locate
  split
  · next hlong => simp [hlong]
  · next hshort => simp [hshort, walk_eq_nameTooLong_iff]

theorem directory?_eq_error_iff {path : Path} {error : OsError} :
    tree.directory? path = .error error ↔ error = .nameTooLong ∧ tree.IsOverlong path := by
  rw [IsOverlong, ← locate_eq_nameTooLong_iff]
  unfold directory?
  split
  · next hnull => simp [hnull]
  · next hnull =>
      split
      · next hlocate => simp [hnull, hlocate, eq_comm]
      · next other hother hlocate => simp [hlocate, show other ≠ .nameTooLong from hother]
      · next hlocate => split <;> simp [hlocate]

theorem directory?_ne_error {path : Path}
    (hsegments : ∀ segment ∈ path.segments, segment.utf8ByteSize ≤ maxNameBytes)
    (hpath : path.hasNull = false → path.isTooLong = false) (error : OsError) :
    tree.directory? path ≠ .error error := by
  rw [Ne, directory?_eq_error_iff]
  rintro ⟨-, hnull, hlong | hmeets⟩
  · rw [hpath hnull] at hlong
    contradiction
  · exact walk_ne_nameTooLong hsegments (walk_eq_nameTooLong_iff.mpr hmeets)

/-- The path leads to a directory. -/
def NamesDirectory (tree : Tree) (path : Path) : Prop :=
  ∃ location, path.hasNull = false ∧ tree.locate path = .ok location ∧
    tree.node? location = some .directory

theorem directory?_eq_some_iff {root : Path} :
    tree.directory? root = .ok (some location) ↔
      root.hasNull = false ∧ tree.locate root = .ok location ∧
        tree.node? location = some .directory := by
  unfold directory?
  constructor
  · intro h
    by_cases hnull : root.hasNull = true
    · simp [hnull] at h
    · rw [if_neg hnull] at h
      refine ⟨by simpa using hnull, ?_⟩
      split at h
      · contradiction
      · simp at h
      · next place hplace =>
          split at h
          · next hdirectory =>
              rw [Except.ok.injEq, Option.some.injEq] at h
              subst h
              exact ⟨hplace, hdirectory⟩
          · simp at h
  · intro hexists
    obtain ⟨hnull, hlocate, hdirectory⟩ := hexists
    simp [hnull, hlocate, hdirectory]

/-- A path names one directory at most. -/
theorem location_unique {root : Path} {other : Location}
    (h : tree.directory? root = .ok (some location))
    (hother : tree.directory? root = .ok (some other)) : location = other := by
  rw [h, Except.ok.injEq, Option.some.injEq] at hother
  exact hother

theorem IsOverlong.not_namesDirectory {path : Path} (h : tree.IsOverlong path) :
    ¬ tree.NamesDirectory path := by
  rintro ⟨location, -, hlocate, -⟩
  rw [locate_eq_nameTooLong_iff.mpr h.2] at hlocate
  contradiction

theorem locate_join {root : Path} {node : Node} (hroot : tree.locate root = .ok location)
    (hshort : (root.join names).isTooLong = false)
    (h : tree.node? (location ++ names) = some node) :
    tree.locate (root.join names) = .ok (location ++ names) := by
  have hwalk : tree.walk (tree.start root) root.segments = .ok location := by
    unfold locate at hroot
    split at hroot
    · contradiction
    · exact hroot
  have hstart : tree.start (root.join names) = tree.start root := rfl
  unfold locate
  rw [hshort, if_neg Bool.false_ne_true, hstart, Path.join, walk_append, hwalk]
  exact walk_names h

theorem hasNull_join {root : Path} {node : Node} (hroot : root.hasNull = false)
    (h : tree.node? (location ++ names) = some node) :
    (root.join names).hasNull = false := by
  have hplain : ∀ name ∈ names, name.contains '\x00' = false := by
    intro name hname
    have hfile := isFileName_of_node? h name (List.mem_append_right location hname)
    simp only [isFileName, Bool.and_eq_true, Bool.not_eq_true'] at hfile
    exact hfile.1.2
  have hnames : (names.any fun name => name.contains '\x00') = false := by
    rw [List.any_eq_false]
    intro name hname
    simp [hplain name hname]
  unfold Path.hasNull at hroot ⊢
  rw [Path.join, List.any_append, hroot, hnames]
  rfl

/-- A file below the directory that a path names can be read along its names. -/
theorem read_join {root : Path} {bytes : List UInt8}
    (hroot : tree.directory? root = .ok (some location))
    (hshort : (root.join names).isTooLong = false)
    (h : tree.node? (location ++ names) = some (.file bytes)) :
    tree.read (root.join names) = .ok bytes := by
  obtain ⟨hnull, hlocate, hdirectory⟩ := directory?_eq_some_iff.mp hroot
  unfold read
  rw [hasNull_join hnull h, locate_join hlocate hshort h]
  simp [h]

theorem directory?_join {root : Path} (hroot : tree.directory? root = .ok (some location))
    (hshort : (root.join names).isTooLong = false)
    (h : tree.node? (location ++ names) = some .directory) :
    tree.directory? (root.join names) = .ok (some (location ++ names)) := by
  obtain ⟨hnull, hlocate, -⟩ := directory?_eq_some_iff.mp hroot
  exact directory?_eq_some_iff.mpr ⟨hasNull_join hnull h, locate_join hlocate hshort h, h⟩

/-! ## Paths from the working directory -/

theorem node?_workingDirectory (tree : Tree) :
    tree.node? tree.workingDirectory = some .directory := by
  rcases tree.working_directory with hroot | hmem
  · rw [hroot, node?_nil]
  · exact node?_of_mem hmem

theorem directory?_here (tree : Tree) :
    tree.directory? ⟨.workingDirectory, []⟩ = .ok (some tree.workingDirectory) := by
  have hshort : Path.isTooLong ⟨.workingDirectory, []⟩ = false := by cbv
  rw [directory?_eq_some_iff]
  refine ⟨rfl, ?_, node?_workingDirectory tree⟩
  rw [locate, hshort, if_neg Bool.false_ne_true]
  rfl

theorem parse_manifest :
    Path.parse "./package.json" = ⟨.workingDirectory, ["package.json"]⟩ := by
  cbv

theorem parse_sources : Path.parse "src" = ⟨.workingDirectory, ["src"]⟩ := by
  cbv

theorem read_manifest {bytes : List UInt8}
    (h : tree.node? (tree.workingDirectory ++ ["package.json"]) = some (.file bytes)) :
    tree.read (Path.parse "./package.json") = .ok bytes := by
  have hshort : Path.isTooLong ⟨.workingDirectory, ["package.json"]⟩ = false := by cbv
  rw [parse_manifest]
  exact read_join tree.directory?_here hshort h

theorem directory?_sources
    (h : tree.node? (tree.workingDirectory ++ ["src"]) = some .directory) :
    tree.directory? (Path.parse "src") = .ok (some (tree.workingDirectory ++ ["src"])) := by
  have hshort : Path.isTooLong ⟨.workingDirectory, ["src"]⟩ = false := by cbv
  rw [parse_sources]
  exact directory?_join tree.directory?_here hshort h

/-! ## What stands below a location -/

theorem mem_nodesBelow {node : Node} :
    (names, node) ∈ tree.nodesBelow location ↔
      names ≠ [] ∧ tree.node? (location ++ names) = some node := by
  unfold nodesBelow
  rw [List.mem_filterMap]
  constructor
  · intro hexists
    obtain ⟨⟨place, found⟩, hmem, h⟩ := hexists
    simp only [Option.ite_none_right_eq_some, Option.some.injEq, Prod.mk.injEq,
      Bool.and_eq_true, List.isPrefixOf_iff_prefix, decide_eq_true_eq] at h
    obtain ⟨⟨⟨rest, rfl⟩, hlength⟩, hnames, rfl⟩ := h
    rw [List.drop_left] at hnames
    subst hnames
    refine ⟨?_, node?_of_mem hmem⟩
    rintro rfl
    simp at hlength
  · intro hexists
    obtain ⟨hnames, h⟩ := hexists
    rcases mem_of_node? h with ⟨hroot, hnode⟩ | hmem
    · exact absurd (List.append_eq_nil_iff.mp hroot).2 hnames
    · refine ⟨_, hmem, ?_⟩
      have hpos := List.length_pos_iff.mpr hnames
      simp [hpos]

theorem mem_filesBelow {bytes : List UInt8} :
    (names, bytes) ∈ tree.filesBelow location ↔
      names ≠ [] ∧ tree.node? (location ++ names) = some (.file bytes) := by
  unfold filesBelow
  rw [List.mem_filterMap, ← mem_nodesBelow]
  constructor
  · intro hexists
    obtain ⟨⟨place, node⟩, hmem, h⟩ := hexists
    cases node with
    | directory => simp at h
    | file found =>
        simp only [Option.some.injEq, Prod.mk.injEq] at h
        obtain ⟨rfl, rfl⟩ := h
        exact hmem
  · intro hmem
    exact ⟨_, hmem, rfl⟩

/-! ## A tree of one file -/

def ofFile (name : String) (hname : isFileName name = true) (bytes : List UInt8) : Tree where
  nodes := [([name], .file bytes)]
  workingDirectory := []
  unique := by simp
  named := by simp [hname]
  closed := by simp
  working_directory := Or.inl rfl

theorem isTooLong_of_isFileName {name : String} (hname : isFileName name = true) :
    Path.isTooLong ⟨.workingDirectory, [name]⟩ = false := by
  have hsize : name.utf8ByteSize ≤ maxNameBytes := by
    simp only [isFileName, Bool.and_eq_true, decide_eq_true_eq] at hname
    exact hname.2
  have htext : Path.text ⟨.workingDirectory, [name]⟩ = name := by
    simp [Path.text, Path.anchorText]
  simp only [Path.isTooLong, htext, decide_eq_false_iff_not, Path.maxBytes]
  simp only [maxNameBytes] at hsize
  omega

theorem read_ofFile {name : String} (hname : isFileName name = true) (bytes : List UInt8) :
    (ofFile name hname bytes).read ⟨.workingDirectory, [name]⟩ = .ok bytes := by
  have hnode : (ofFile name hname bytes).node? ([] ++ [name]) = some (.file bytes) := by
    simp [node?, ofFile]
  exact read_join (directory?_here _) (isTooLong_of_isFileName hname) hnode

/-! ## A small project -/

def sampleManifest : String :=
  "\x7b\"name\": \"caf\\u00e9\", " ++
    "\"dependencies\": \x7b\"a\": \"1\", \"b\": \"2\", \"a\": \"3\"\x7d, " ++
    "\"devDependencies\": \x7b\"c\": \"1\"\x7d\x7d"

/-- A manifest that names a dependency twice, and two sources. -/
def sampleProject : Tree where
  nodes := [
    (["package.json"], .file (Utf8.encode sampleManifest.toList)),
    (["src"], .directory),
    (["src", "x.js"], .file (Utf8.encode "import 'a'".toList)),
    (["src", "y.ts"], .file (Utf8.encode "require('c/d')".toList))]
  workingDirectory := []
  unique := by decide
  named := by
    have hnames : ([["package.json"], ["src"], ["src", "x.js"], ["src", "y.ts"]].all
        fun place => place.all isFileName) = true := by cbv
    simpa using hnames
  closed := by simp
  working_directory := Or.inl rfl

theorem read_sampleManifest :
    sampleProject.read (Path.parse "./package.json") =
      .ok (Utf8.encode sampleManifest.toList) := by
  apply read_manifest
  simp [node?, sampleProject]

theorem directory?_sampleSources :
    sampleProject.directory? (Path.parse "src") = .ok (some ["src"]) := by
  apply directory?_sources
  simp [node?, sampleProject]

theorem nodesBelow_sampleSources :
    sampleProject.nodesBelow ["src"] = [
      (["x.js"], .file (Utf8.encode "import 'a'".toList)),
      (["y.ts"], .file (Utf8.encode "require('c/d')".toList))] := by
  simp [nodesBelow, sampleProject]

end DependencyAudit.Tree
