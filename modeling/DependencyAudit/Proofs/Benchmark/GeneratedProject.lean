import DependencyAudit.Benchmark.Run
import DependencyAudit.Proofs.Benchmark.DrawnFiles
import DependencyAudit.Proofs.Benchmark.ProjectScan
import DependencyAudit.Proofs.Source.SourceScan

/-!
# What making a project leaves

Making a project replaces whatever was in its place, and what it leaves there is fixed by
the draws: the manifest, and one source for each number, with the modules that were drawn
for it.  A scan finds these sources and reads the modules back.  Nothing outside the
place changes, and nothing that was inside it shows.
-/

namespace DependencyAudit.Benchmark

open Source

variable {limits : Limits} {tree made other : Tree} {files : List GeneratedFile}
variable {draws : Draws} {count : Int}

/-! ## Reading the sources back -/

/-- The path by which a scan of the sources gives a file. -/
def GeneratedFile.path (file : GeneratedFile) : Path :=
  sourcesPath.join [file.name]

theorem GeneratedFile.path_eq_iff {file another : GeneratedFile} :
    file.path = another.path ↔ file.name = another.name := by
  simp [GeneratedFile.path, Path.join]

theorem nodup_paths (hdistinct : (files.map GeneratedFile.name).Nodup) :
    (files.map GeneratedFile.path).Nodup := by
  rw [List.Nodup, List.pairwise_map] at hdistinct ⊢
  exact hdistinct.imp fun hne heq => hne (GeneratedFile.path_eq_iff.mp heq)

theorem IsProject.exists_sources (h : IsProject tree made files) (hfiles : AreGenerated files)
    (hdistinct : (files.map GeneratedFile.name).Nodup) :
    ∃ sources, Source.files limits made sourcesPath = .ok ⟨sources, []⟩ ∧
      sources.Perm (files.map GeneratedFile.path) := by
  have hscan : IsScannable limits made sourcesPath := h.isScannable hfiles
  obtain ⟨_, hends⟩ := hscan.exists_files
  have hsources := files_of_no_stops h.directory?_sources
    (stops_of_files h.directory?_sources hends)
  generalize (eligibleBelow made (projectLocation tree ++ ["src"])).map sourcesPath.join = sources
    at hsources
  have hlists := listsSources_of_files hsources
  refine ⟨sources, hsources, ?_⟩
  have hnodup : sources.Nodup :=
    List.Nodup.of_map Path.segments (hlists.ascending.imp fun hlt => ne_of_lt hlt)
  rw [List.perm_ext_iff_of_nodup hnodup (nodup_paths hdistinct)]
  intro path
  rw [hlists.mem_iff, List.mem_map]
  constructor
  · rintro ⟨location, names, bytes, hsource, rfl⟩
    obtain ⟨-, file, hfile, rfl, -⟩ := (h.isSource_iff hfiles).mp hsource
    exact ⟨file, hfile, rfl⟩
  · rintro ⟨file, hfile, rfl⟩
    exact ⟨_, [file.name], _, (h.isSource_iff hfiles).mpr ⟨rfl, file, hfile, rfl, rfl⟩, rfl⟩

theorem IsProject.imports_path (h : IsProject tree made files) (hfiles : AreGenerated files)
    {file : GeneratedFile} (hfile : file ∈ files) :
    Source.imports made file.path = .ok ⟨file.imports, []⟩ := by
  have hscan : IsScannable .standard made sourcesPath := h.isScannable hfiles
  obtain ⟨sources, hsources⟩ := hscan.exists_files
  have hsource := (h.isSource_iff hfiles).mpr ⟨rfl, file, hfile, rfl, rfl⟩
  rw [← hfiles.specifiersOfBytes hfile]
  exact imports_of_isSource hsources hsource

/-! ## The tree that is left -/

/-- What is left of a tree when a project of these files was made in it: the files are those
that the draws give, the tree is otherwise unchanged, and a scan reads them back. -/
structure LeavesProject (limits : Limits) (tree made : Tree) (draws : Draws) (count : Nat)
    (files : List GeneratedFile) : Prop where
  project : IsProject tree made files
  length_files : files.length = count
  drawn : ∀ index file, files[index]? = some file →
    IsDrawnFrom draws.stream (firstDraw draws index) index file
  imports_distinct : ∀ file ∈ files, 1 ≤ file.imports.length ∧ file.imports.length ≤ 10 ∧
    file.imports.Nodup ∧ file.imports ⊆ libraries
  sources : ∃ sources, Source.files limits made sourcesPath = .ok ⟨sources, []⟩ ∧
    sources.Perm (files.map GeneratedFile.path)
  imports : ∀ file ∈ files, Source.imports made file.path = .ok ⟨file.imports, []⟩

/-- Two trees differ at most in the place of the project, where the second has no file and
nothing that lies too deep to be removed. -/
structure DiffersInside (limits : Limits) (tree other : Tree) : Prop where
  workingDirectory : other.workingDirectory = tree.workingDirectory
  outside : ∀ place, ¬ projectLocation tree <+: place → other.node? place = tree.node? place
  free : ∀ bytes, other.node? (projectLocation other) ≠ some (.file bytes)
  removable : IsRemovable limits other

theorem imports_distinct_of_drawn {stream : Nat → Nat} {first index : Nat} {file : GeneratedFile}
    (h : IsDrawnFrom stream first index file) :
    1 ≤ file.imports.length ∧ file.imports.length ≤ 10 ∧ file.imports.Nodup ∧
      file.imports ⊆ libraries := by
  rw [h.length_imports]
  exact ⟨importCount_pos stream first, importCount_le stream first, h.imports.nodup,
    h.imports.subset⟩

theorem IsProject.leavesProject (h : IsProject tree made (generateFiles draws 0 count.toNat).1)
    (hnames : ∀ file ∈ (generateFiles draws 0 count.toNat).1,
      file.name.utf8ByteSize ≤ maxNameBytes) :
    LeavesProject limits tree made draws count.toNat (generateFiles draws 0 count.toNat).1 := by
  have hfiles := areGenerated_of_names hnames
  have hdrawn : ∀ index file, (generateFiles draws 0 count.toNat).1[index]? = some file →
      IsDrawnFrom draws.stream (firstDraw draws index) index file := by
    intro index file hfile
    simpa using isDrawnFrom_generateFiles hfile
  refine ⟨h, length_generateFiles draws 0 count.toNat, hdrawn, ?_,
    h.exists_sources hfiles (nodup_names draws 0 count.toNat),
    fun file hfile => h.imports_path hfiles hfile⟩
  intro file hfile
  obtain ⟨index, hindex⟩ := List.mem_iff_getElem?.mp hfile
  exact imports_distinct_of_drawn (hdrawn index file hindex)

/-- What a project leaves does not depend on what was in its place. -/
theorem IsProject.node?_eq {remade : Tree} (h : IsProject tree made files)
    (hother : IsProject other remade files) (hdiffers : DiffersInside limits tree other)
    (place : Location) : remade.node? place = made.node? place := by
  have hlocation := projectLocation_congr hdiffers.workingDirectory
  by_cases hinside : projectLocation tree <+: place
  · obtain ⟨names, rfl⟩ := hinside
    ext node
    rw [h.inside, ← hlocation, hother.inside]
  · rw [h.outside place hinside, hother.outside place (hlocation ▸ hinside),
      hdiffers.outside place hinside]

/-! ## Making a project -/

/-- What a run that makes a project prints, if its line can be printed. -/
def madeTranscript (count : Int) : Except Abort Transcript :=
  (madeLine count).map fun line => { stdout := line }

theorem generate_of_makeProject (h : makeProject limits tree draws count = ⟨made, .ok ()⟩) :
    generate limits tree draws count = ⟨made, madeTranscript count⟩ := by
  rw [generate, make, h, Effect.andThen_ok]
  cases hline : madeLine count with
  | error abort => simp [madeTranscript, hline, Except.map]
  | ok line => simp [madeTranscript, hline, Except.map]

theorem generate_of_makeProject_error {abort : Abort}
    (h : makeProject limits tree draws count = ⟨made, .error abort⟩) :
    generate limits tree draws count = ⟨made, .error abort⟩ := by
  rw [generate, make, h, Effect.andThen_error, Effect.andThen_error]

theorem madeTranscript_ok_iff :
    (∃ transcript, madeTranscript count = .ok transcript) ↔
      count.natAbs < 10 ^ Text.maxDigits := by
  rw [← madeLine_ok_iff, madeTranscript]
  cases madeLine count with
  | error abort => simp [Except.map]
  | ok line => simp [Except.map]

theorem names_of_generate {transcript : Transcript}
    (hplace : ∀ bytes, tree.node? (projectLocation tree) ≠ some (.file bytes))
    (h : generate limits tree draws count = ⟨made, .ok transcript⟩) :
    ∀ file ∈ (generateFiles draws 0 count.toNat).1, file.name.utf8ByteSize ≤ maxNameBytes := by
  obtain ⟨after, line, hmake, -⟩ := Effect.exists_of_andThen h
  obtain ⟨written, ⟨⟩, hproject, -⟩ := Effect.exists_of_andThen hmake
  rw [makeProject_eq_writeProject limits draws count hplace] at hproject
  intro file hfile
  have hname := isFileName_of_writeProject hproject file hfile
  simp only [isFileName, Bool.and_eq_true, decide_eq_true_eq] at hname
  exact hname.2

/-- Where there is no file in its place and nothing too deep to be removed, a project is made
as long as the names of its files are short enough, and they are up to numbers of 246
digits.  The tree then holds the manifest and the files that the draws give, in that
place nothing else, and elsewhere what it held before; the sources are found and their
modules read back.  What was in the place before makes no difference.  Where something is
too deep to be removed, no project is made, but elsewhere nothing is changed either. -/
theorem generate_leaves_project (limits : Limits) (draws : Draws) (count : Int)
    (hplace : ∀ bytes, tree.node? (projectLocation tree) ≠ some (.file bytes)) :
    (IsRemovable limits tree →
      (count ≤ 10 ^ 246 → ∀ file ∈ (generateFiles draws 0 count.toNat).1,
        file.name.utf8ByteSize ≤ maxNameBytes) ∧
      ((∃ made transcript, generate limits tree draws count = ⟨made, .ok transcript⟩) ↔
        (∀ file ∈ (generateFiles draws 0 count.toNat).1,
          file.name.utf8ByteSize ≤ maxNameBytes) ∧ count.natAbs < 10 ^ Text.maxDigits) ∧
      ((∀ file ∈ (generateFiles draws 0 count.toNat).1,
          file.name.utf8ByteSize ≤ maxNameBytes) →
        ∃ made, generate limits tree draws count = ⟨made, madeTranscript count⟩ ∧
          LeavesProject limits tree made draws count.toNat
            (generateFiles draws 0 count.toNat).1 ∧
          ∀ other, DiffersInside limits tree other →
            ∃ remade, generate limits other draws count = ⟨remade, madeTranscript count⟩ ∧
              ∀ place, remade.node? place = made.node? place)) ∧
    (¬ IsRemovable limits tree →
      ∃ left, generate limits tree draws count = ⟨left, .error .removalTooDeep⟩ ∧
        IsPartlyRemoved limits tree left) := by
  refine ⟨fun hremovable => ⟨names_of_count, ⟨?_, ?_⟩, ?_⟩, ?_⟩
  · rintro ⟨made, transcript, hgenerate⟩
    have hnames := names_of_generate hplace hgenerate
    obtain ⟨after, hafter, -⟩ := exists_makeProject_of_names hplace hremovable hnames
    rw [generate_of_makeProject hafter, Effect.mk.injEq] at hgenerate
    exact ⟨hnames, madeTranscript_ok_iff.mp ⟨transcript, hgenerate.2⟩⟩
  · rintro ⟨hnames, hdigits⟩
    obtain ⟨made, hmade, -⟩ := exists_makeProject_of_names hplace hremovable hnames
    obtain ⟨transcript, htranscript⟩ := madeTranscript_ok_iff.mpr hdigits
    exact ⟨made, transcript, by rw [generate_of_makeProject hmade, htranscript]⟩
  · intro hnames
    obtain ⟨made, hmade, hproject⟩ := exists_makeProject_of_names hplace hremovable hnames
    refine ⟨made, generate_of_makeProject hmade, hproject.leavesProject hnames, ?_⟩
    intro other hdiffers
    obtain ⟨remade, hremade, hreproject⟩ :=
      exists_makeProject_of_names hdiffers.free hdiffers.removable hnames
    exact ⟨remade, generate_of_makeProject hremade, hproject.node?_eq hreproject hdiffers⟩
  · intro hdeep
    obtain ⟨left, hleft, hremoved⟩ := exists_makeProject_of_deep draws count hplace hdeep
    exact ⟨left, generate_of_makeProject_error hleft, hremoved⟩

/-- A tree with remains of another project in the place of the project. -/
def treeWithRemains : Tree where
  nodes := [
    (["benchmark_src"], .directory),
    (["benchmark_src", "src"], .directory),
    (["benchmark_src", "src", "file_0.js"], .file (Utf8.encode "import 'left-pad'".toList)),
    (["notes"], .file [])]
  workingDirectory := []
  unique := by decide
  named := by
    have hnames : ([["benchmark_src"], ["benchmark_src", "src"],
        ["benchmark_src", "src", "file_0.js"], ["notes"]].all
          fun place => place.all isFileName) = true := by cbv
    simpa using hnames
  closed := by simp
  working_directory := Or.inl rfl

theorem isRemovable_treeWithRemains : IsRemovable .standard treeWithRemains := by
  rw [IsRemovable, ← Tree.firstBeyond?_eq_none_iff]
  cbv

theorem generate_in_treeWithRemains :
    (∀ bytes, treeWithRemains.node? (projectLocation treeWithRemains) ≠ some (.file bytes)) ∧
      IsRemovable .standard treeWithRemains ∧ (3 : Int) ≤ 10 ^ 246 ∧
      ∃ made, generate .standard treeWithRemains { stream := id } 3 =
          ⟨made, madeTranscript 3⟩ ∧
        LeavesProject .standard treeWithRemains made { stream := id } 3
          (generateFiles { stream := id } 0 3).1 := by
  have hplace : ∀ bytes, treeWithRemains.node? (projectLocation treeWithRemains) ≠
      some (.file bytes) := by
    intro bytes
    have hnode : treeWithRemains.node? (projectLocation treeWithRemains) = some .directory := by
      simp [Tree.node?, projectLocation, projectName, treeWithRemains]
    rw [hnode]
    simp
  have hcount : (3 : Int) ≤ 10 ^ 246 := by norm_num
  have hremovable := isRemovable_treeWithRemains
  obtain ⟨hnames, -, hleaves⟩ :=
    (generate_leaves_project .standard { stream := id } 3 hplace).1 hremovable
  obtain ⟨made, hmade, hproject, -⟩ := hleaves (hnames hcount)
  exact ⟨hplace, hremovable, hcount, made, hmade, hproject⟩

/-- There is a directory in the place of the project, but so many one in another that they
cannot be removed.  No project is made, and the deepest ones are still there. -/
theorem not_generate_over_nestedTree :
    (∀ bytes, (nestedTree 995).node? (projectLocation (nestedTree 995)) ≠
        some (.file bytes)) ∧
      ∃ left, generate .standard (nestedTree 995) { stream := id } 3 =
          ⟨left, .error .removalTooDeep⟩ ∧
        ¬ IsRemovable .standard left := by
  have hplace := not_file_nestedTree 995
  have hdeep : ¬ IsRemovable .standard (nestedTree 995) :=
    not_isRemovable_nestedTree (by decide)
  obtain ⟨left, hleft, hremoved⟩ :=
    exists_makeProject_of_deep { stream := id } 3 hplace hdeep
  exact ⟨hplace, left, generate_of_makeProject_error hleft, hremoved.deep⟩

end DependencyAudit.Benchmark
