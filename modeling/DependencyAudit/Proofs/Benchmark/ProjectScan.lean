import DependencyAudit.Proofs.Benchmark.ProjectTree
import DependencyAudit.Proofs.Benchmark.WrittenImports
import DependencyAudit.Proofs.Files.PathText
import DependencyAudit.Proofs.Report.ReadBack

/-!
# Reading a project

A project is read by the paths under which it was made.  The manifest that was printed
is read back, the sources are exactly the generated files, and each of them imports what
was drawn for it.  The paths are short, so no scan of a project ends early.
-/

namespace DependencyAudit.Benchmark

open Source

variable {limits : Limits} {tree made : Tree} {files : List GeneratedFile}

/-! ## Ways into a project -/

def sourcesPath : Path := ⟨.workingDirectory, [projectName, "src"]⟩

def manifestPath : Path := ⟨.workingDirectory, [projectName, "package.json"]⟩

theorem parse_paths :
    Path.parse "benchmark_src/src" = sourcesPath ∧
      Path.parse "benchmark_src/package.json" = manifestPath := by
  decide +kernel

theorem IsProject.directory?_sources (h : IsProject tree made files) :
    made.directory? sourcesPath = .ok (some (projectLocation tree ++ ["src"])) := by
  have hshort : sourcesPath.isTooLong = false := by decide +kernel
  have hplace : projectLocation tree ++ ["src"] =
      made.workingDirectory ++ [projectName, "src"] := by
    rw [projectLocation, h.workingDirectory, List.append_assoc]
    rfl
  have hnode : made.node? (projectLocation tree ++ ["src"]) = some .directory :=
    (h.inside ["src"] .directory).mpr (Or.inl ⟨Or.inr rfl, rfl⟩)
  rw [hplace] at hnode ⊢
  exact Tree.directory?_join made.directory?_here hshort hnode

theorem IsProject.read_manifest (h : IsProject tree made files) :
    made.read manifestPath = .ok (bytesOf manifestText) := by
  have hshort : manifestPath.isTooLong = false := by decide +kernel
  have hplace : projectLocation tree ++ ["package.json"] =
      made.workingDirectory ++ [projectName, "package.json"] := by
    rw [projectLocation, h.workingDirectory, List.append_assoc]
    rfl
  have hnode : made.node? (projectLocation tree ++ ["package.json"]) =
      some (.file (bytesOf manifestText)) :=
    (h.inside ["package.json"] _).mpr (Or.inr (Or.inr ⟨rfl, rfl⟩))
  rw [hplace] at hnode
  exact Tree.read_join made.directory?_here hshort hnode

/-! ## The manifest -/

theorem jsonOfBytes_projectManifest (hlevels : 2 ≤ limits.containers) :
    Manifest.jsonOfBytes limits (bytesOf manifestText) = .ok (.ok projectManifest) := by
  have hwithin : projectManifest.IsWithin 2 1 := ⟨by decide, by decide⟩
  rw [bytesOf_eq_encode]
  exact Manifest.jsonOfBytes_encode_render (by decide) (hwithin.mono hlevels (by decide))
    string?_projectManifest

/-- The dependencies of a manifest stand two containers deep. -/
theorem IsProject.read_eq_ok (h : IsProject tree made files) (hlevels : 2 ≤ limits.containers) :
    Manifest.read limits made manifestPath = .ok ⟨.ok (Manifest.ofJson projectManifest), []⟩ :=
  Manifest.read_eq_ok h.read_manifest (jsonOfBytes_projectManifest hlevels)

theorem names_projectManifest :
    (Manifest.ofJson projectManifest).names .production =
        (["react", "lodash", "left-pad"] : List CodeText) ∧
      (Manifest.ofJson projectManifest).names .development =
        (["express", "typescript"] : List CodeText) := by
  constructor <;> decide

theorem isPlain_projectManifest_names : ∀ cls,
    ∀ name ∈ (Manifest.ofJson projectManifest).names cls, CodeText.IsPlain name := by
  intro cls
  cases cls <;> decide

/-! ## The sources -/

/-- The files of a project are generated: each is one that some draws give for its number, and
its name is one that a file may have. -/
def AreGenerated (files : List GeneratedFile) : Prop :=
  ∀ file ∈ files, file.name.utf8ByteSize ≤ maxNameBytes ∧
    ∃ draws index, file = (generateFile draws index).1

theorem areGenerated_of_names {draws : Draws} {count : Nat}
    (h : ∀ file ∈ (generateFiles draws 0 count).1, file.name.utf8ByteSize ≤ maxNameBytes) :
    AreGenerated (generateFiles draws 0 count).1 := by
  intro file hfile
  obtain ⟨before, number, -, -, hdrawn⟩ := exists_of_mem_generateFiles hfile
  exact ⟨h file hfile, before, number, hdrawn⟩

theorem AreGenerated.isEligible (h : AreGenerated files) {file : GeneratedFile}
    (hfile : file ∈ files) : isEligible [file.name] = true := by
  obtain ⟨-, draws, index, rfl⟩ := h file hfile
  obtain ⟨suffix, hsuffix, hname⟩ := exists_name_generateFile draws index
  rw [hname]
  exact isEligible_fileName hsuffix

/-- The bytes of a generated file are read as its text, in which the scan finds what was
drawn for the file. -/
theorem AreGenerated.specifiersOfBytes (h : AreGenerated files) {file : GeneratedFile}
    (hfile : file ∈ files) : specifiersOfBytes (bytesOf file.text) = file.imports := by
  obtain ⟨-, draws, index, rfl⟩ := h file hfile
  have hdecode : Utf8.decodeLenient (bytesOf (generateFile draws index).1.text) =
      (generateFile draws index).1.text.toList := by
    rw [bytesOf_eq_encode, Utf8.decodeLenient, Utf8.pieces_encode, Utf8.map_shown_scalar]
  rw [Source.specifiersOfBytes, hdecode,
    Text.unifyNewlines_of_not_mem (carriageReturn_not_mem_text draws index),
    String.ofList_toList, specifiers_generateFile]

theorem AreGenerated.mem_libraries (h : AreGenerated files) {file : GeneratedFile}
    (hfile : file ∈ files) {library : String} (hlibrary : library ∈ file.imports) :
    library ∈ libraries := by
  obtain ⟨-, draws, index, rfl⟩ := h file hfile
  exact mem_libraries_of_mem_imports hlibrary

/-- What stands strictly below the directory of the sources are the generated files. -/
theorem IsProject.node?_sources (h : IsProject tree made files) {names : List String} {node : Node}
    (hbelow : names ≠ []) :
    made.node? (projectLocation tree ++ ["src"] ++ names) = some node ↔
      ∃ file ∈ files, names = [file.name] ∧ node = .file (bytesOf file.text) := by
  rw [List.append_assoc, h.inside]
  simp [hbelow]

theorem IsProject.isSource_iff (h : IsProject tree made files) (hfiles : AreGenerated files)
    {location : Location} {names : List String} {bytes : List UInt8} :
    IsSource made sourcesPath location names bytes ↔
      location = projectLocation tree ++ ["src"] ∧
        ∃ file ∈ files, names = [file.name] ∧ bytes = bytesOf file.text := by
  rw [Source.isSource_iff, h.directory?_sources, Except.ok.injEq, Option.some.injEq]
  constructor
  · rintro ⟨rfl, hbelow, hfile, -⟩
    obtain ⟨file, hmem, hnames, hnode⟩ := (h.node?_sources hbelow).mp hfile
    exact ⟨rfl, file, hmem, hnames, Node.file.inj hnode⟩
  · rintro ⟨rfl, file, hmem, rfl, rfl⟩
    have hbelow : [file.name] ≠ [] := by simp
    exact ⟨rfl, hbelow, (h.node?_sources hbelow).mpr ⟨file, hmem, rfl, rfl⟩,
      hfiles.isEligible hmem⟩

theorem IsProject.hasShortPaths (h : IsProject tree made files) (hfiles : AreGenerated files) :
    HasShortPaths made sourcesPath := by
  have hsizes : projectName.utf8ByteSize = 13 ∧ "src".utf8ByteSize = 3 := ⟨rfl, rfl⟩
  refine ⟨?_, fun _ => by decide +kernel, ?_⟩
  · intro segment hsegment
    simp only [sourcesPath, List.mem_cons, List.not_mem_nil, or_false] at hsegment
    rcases hsegment with rfl | rfl
    · rw [hsizes.1, maxNameBytes]
      decide
    · rw [hsizes.2, maxNameBytes]
      decide
  · intro location names node hlocation hbelow hnode _
    cases Tree.location_unique h.directory?_sources hlocation
    obtain ⟨file, hmem, rfl, -⟩ := (h.node?_sources hbelow).mp hnode
    have hname := (hfiles file hmem).1
    have hjoin : sourcesPath.join [file.name] =
        ⟨.workingDirectory, [projectName, "src", file.name]⟩ := rfl
    rw [hjoin, Bool.eq_false_iff, Ne, Path.isTooLong_iff (by simp)]
    simp only [List.map_cons, List.map_nil, List.sum_cons, List.sum_nil, hsizes.1, hsizes.2]
    rw [maxNameBytes] at hname
    rw [Path.maxBytes]
    omega

/-- There is no directory among the sources, so they are not too deep for any scan. -/
theorem IsProject.isShallow (h : IsProject tree made files) :
    IsShallow limits made sourcesPath := by
  intro location names hlocation hnode
  cases Tree.location_unique h.directory?_sources hlocation
  by_cases hbelow : names = []
  · rw [hbelow]
    exact Nat.zero_le _
  · obtain ⟨file, -, -, hfile⟩ := (h.node?_sources hbelow).mp hnode
    contradiction

theorem IsProject.isScannable (h : IsProject tree made files) (hfiles : AreGenerated files) :
    IsScannable limits made sourcesPath :=
  ⟨h.hasShortPaths hfiles, h.isShallow⟩

end DependencyAudit.Benchmark
