import DependencyAudit.Proofs.Benchmark.ClearedPlace
import DependencyAudit.Proofs.Benchmark.FileNames

/-!
# What stands in a project

Making a project clears its place, makes the two directories, writes the sources one
after the other and the manifest last.  Each step succeeds, because the names of the
sources differ and none is too long, and says what stands at every place after it.  So
nothing that was in the project's place before is left, and nothing elsewhere changes.
-/

namespace DependencyAudit.Benchmark

variable {limits : Limits} {tree made : Tree} {files : List GeneratedFile}

/-- The text of the manifest of every project. -/
def manifestText : String :=
  String.ofList (CodeText.chars projectManifest.render)

/-- The tree with a project of these files in its place, and otherwise as it was. -/
structure IsProject (tree made : Tree) (files : List GeneratedFile) : Prop where
  workingDirectory : made.workingDirectory = tree.workingDirectory
  outside : ∀ place, ¬ projectLocation tree <+: place → made.node? place = tree.node? place
  inside : ∀ names node, made.node? (projectLocation tree ++ names) = some node ↔
    ((names = [] ∨ names = ["src"]) ∧ node = .directory) ∨
      (∃ file ∈ files, names = ["src", file.name] ∧ node = .file (bytesOf file.text)) ∨
      (names = ["package.json"] ∧ node = .file (bytesOf manifestText))

/-! ## The manifest -/

theorem string?_projectManifest :
    CodeText.string? projectManifest.render = some manifestText := by
  have hplain : ∀ text ∈ Json.texts projectManifest, CodeText.IsPlain text := by decide
  exact if_pos ((Json.isPlain_renderAt_iff projectManifest 0).mpr hplain)

theorem writtenText_projectManifest : writtenText projectManifest = .ok manifestText := by
  simp only [writtenText, string?_projectManifest]

theorem writeManifest_eq (tree : Tree) :
    writeManifest tree = writeText tree ["package.json"] manifestText := by
  unfold writeManifest
  split
  · next habort =>
      rw [writtenText_projectManifest] at habort
      contradiction
  · next text htext =>
      rw [writtenText_projectManifest, Except.ok.injEq] at htext
      rw [htext]

/-! ## The sources -/

theorem exists_writeText (names : List String) {name : String}
    (hdirectory : tree.node? (projectLocation tree ++ names) = some .directory)
    (hname : isFileName name = true)
    (hnew : tree.node? (projectLocation tree ++ (names ++ [name])) = none) (text : String) :
    ∃ after, writeText tree (names ++ [name]) text = ⟨after, .ok ()⟩ ∧
      Tree.AddsNode tree after (projectLocation tree ++ (names ++ [name]))
        (.file (bytesOf text)) := by
  rw [← List.append_assoc] at hnew ⊢
  obtain ⟨after, hwrite, hadds⟩ := Tree.exists_write?_new hdirectory hname hnew (bytesOf text)
  refine ⟨after, ?_, hadds⟩
  rw [writeText, ← List.append_assoc, hwrite]
  rfl

/-- Files whose names differ and are not yet taken are all written, and nothing else. -/
theorem exists_writeFiles
    (hdirectory : tree.node? (projectLocation tree ++ ["src"]) = some .directory)
    (hnames : ∀ file ∈ files, isFileName file.name = true)
    (hnew : ∀ file ∈ files, tree.node? (projectLocation tree ++ ["src", file.name]) = none)
    (hdistinct : (files.map GeneratedFile.name).Nodup) :
    ∃ after, writeFiles tree files = ⟨after, .ok ()⟩ ∧
      after.workingDirectory = tree.workingDirectory ∧
      ∀ place node, after.node? place = some node ↔ tree.node? place = some node ∨
        ∃ file ∈ files, place = projectLocation tree ++ ["src", file.name] ∧
          node = .file (bytesOf file.text) := by
  induction files generalizing tree with
  | nil => exact ⟨tree, rfl, rfl, by simp⟩
  | cons file rest ih =>
      rw [List.forall_mem_cons] at hnames hnew
      rw [List.map_cons, List.nodup_cons] at hdistinct
      obtain ⟨next, hwrite, hadds⟩ :=
        exists_writeText ["src"] hdirectory hnames.1 hnew.1 file.text
      have hlocation := projectLocation_congr hadds.workingDirectory
      have hkept : next.node? (projectLocation next ++ ["src"]) = some .directory := by
        rw [hlocation]
        exact (hadds.node?_eq_some_iff hnew.1).mpr (Or.inl hdirectory)
      have hfree : ∀ other ∈ rest,
          next.node? (projectLocation next ++ ["src", other.name]) = none := by
        intro other hother
        have hne : other.name ≠ file.name := by
          intro heq
          exact hdistinct.1 (heq ▸ List.mem_map_of_mem hother)
        rw [hadds.node?_eq, hlocation, if_neg (by simp [hne]), hnew.2 other hother]
      obtain ⟨after, hafter, hdirectory', hnode⟩ := ih hkept hnames.2 hfree hdistinct.2
      refine ⟨after, ?_, hdirectory'.trans hadds.workingDirectory, ?_⟩
      · rw [List.singleton_append] at hwrite
        rw [writeFiles, hwrite, Effect.andThen_ok, hafter]
      · intro place node
        rw [hnode, hadds.node?_eq_some_iff hnew.1, hlocation]
        simp only [List.mem_cons, exists_eq_or_imp, List.singleton_append, or_assoc]

/-! ## The generated files -/

theorem exists_of_mem_generateFiles {draws : Draws} {index count : Nat} {file : GeneratedFile}
    (h : file ∈ (generateFiles draws index count).1) :
    ∃ before number, index ≤ number ∧ number < index + count ∧
      file = (generateFile before number).1 := by
  induction count generalizing draws index with
  | zero => simp [generateFiles] at h
  | succ count ih =>
      simp only [generateFiles, List.mem_cons] at h
      rcases h with rfl | h
      · exact ⟨draws, index, le_rfl, by omega, rfl⟩
      · obtain ⟨before, number, hlow, hhigh, hfile⟩ := ih h
        exact ⟨before, number, by omega, by omega, hfile⟩

theorem exists_fileName_of_mem {draws : Draws} {index count : Nat} {file : GeneratedFile}
    (h : file ∈ (generateFiles draws index count).1) :
    ∃ number, index ≤ number ∧ number < index + count ∧
      ∃ suffix ∈ sourceSuffixes, file.name = fileName number suffix := by
  obtain ⟨before, number, hlow, hhigh, rfl⟩ := exists_of_mem_generateFiles h
  exact ⟨number, hlow, hhigh, exists_name_generateFile before number⟩

theorem nodup_names (draws : Draws) (index count : Nat) :
    ((generateFiles draws index count).1.map GeneratedFile.name).Nodup := by
  induction count generalizing draws index with
  | zero => exact List.nodup_nil
  | succ count ih =>
      simp only [generateFiles, List.map_cons, List.nodup_cons]
      refine ⟨?_, ih _ _⟩
      intro hmem
      obtain ⟨file, hfile, hname⟩ := List.mem_map.mp hmem
      obtain ⟨number, hlow, -, suffix, -, hlater⟩ := exists_fileName_of_mem hfile
      obtain ⟨ending, -, hfirst⟩ := exists_name_generateFile draws index
      rw [hlater, hfirst] at hname
      have hnumber := fileName_inj hname
      omega

/-- Numbers of at most 246 digits give names that files may have. -/
theorem utf8ByteSize_le_of_mem {draws : Draws} {count : Nat} {file : GeneratedFile}
    (hcount : count ≤ 10 ^ 246) (h : file ∈ (generateFiles draws 0 count).1) :
    file.name.utf8ByteSize ≤ maxNameBytes := by
  obtain ⟨number, -, hhigh, suffix, hsuffix, hname⟩ := exists_fileName_of_mem h
  rw [hname]
  exact utf8ByteSize_fileName_le (by omega) hsuffix

theorem isFileName_of_mem {draws : Draws} {index count : Nat} {file : GeneratedFile}
    (h : file ∈ (generateFiles draws index count).1)
    (hsize : file.name.utf8ByteSize ≤ maxNameBytes) : isFileName file.name = true := by
  obtain ⟨number, -, -, suffix, hsuffix, hname⟩ := exists_fileName_of_mem h
  rw [hname] at hsize ⊢
  exact isFileName_fileName hsuffix hsize

/-! ## The project -/

theorem exists_writeProject (hremovable : IsRemovable limits tree)
    (hnames : ∀ file ∈ files, isFileName file.name = true)
    (hdistinct : (files.map GeneratedFile.name).Nodup) :
    ∃ made, writeProject limits tree files = ⟨made, .ok ()⟩ ∧ IsProject tree made files := by
  obtain ⟨cleared, hclear, hcleared⟩ := exists_clear hremovable
  have hlocation := projectLocation_congr hcleared.workingDirectory
  have hdirectory : cleared.node? (projectLocation cleared ++ ["src"]) = some .directory := by
    rw [hlocation, hcleared.inside, if_pos (Or.inr rfl)]
  have hnew : ∀ file ∈ files,
      cleared.node? (projectLocation cleared ++ ["src", file.name]) = none := by
    intro file hfile
    rw [hlocation, hcleared.inside]
    simp
  obtain ⟨sources, hsources, hworking, hnode⟩ :=
    exists_writeFiles hdirectory hnames hnew hdistinct
  have hmoved := (projectLocation_congr hworking).trans hlocation
  have hroot : sources.node? (projectLocation sources ++ []) = some .directory := by
    rw [hnode, hmoved, hcleared.inside, if_pos (Or.inl rfl)]
    exact Or.inl rfl
  have hfree : sources.node? (projectLocation sources ++ ([] ++ ["package.json"])) = none := by
    rw [Option.eq_none_iff_forall_ne_some]
    intro node
    rw [Ne, hnode, hmoved, hlocation, hcleared.inside]
    simp
  have hmanifest : isFileName "package.json" = true := by cbv
  obtain ⟨made, hmade, hadds⟩ :=
    exists_writeText [] hroot hmanifest hfree manifestText
  rw [List.nil_append, ← writeManifest_eq] at hmade
  refine ⟨made, by simp only [writeProject, hclear, Effect.andThen_ok, hsources, hmade],
    ?_, ?_, ?_⟩
  · rw [hadds.workingDirectory, hworking, hcleared.workingDirectory]
  · intro place houtside
    have hne : ∀ names, place ≠ projectLocation tree ++ names := by
      rintro names rfl
      exact houtside (List.prefix_append ..)
    ext node
    rw [hadds.node?_eq_some_iff hfree, hnode, hcleared.outside place houtside, hmoved, hlocation]
    simp [hne]
  · intro names node
    rw [hadds.node?_eq_some_iff hfree, hnode, hcleared.inside, hmoved, hlocation, or_assoc]
    refine or_congr ?_ (or_congr ?_ ?_)
    · simp [eq_comm]
    · simp
    · simp

/-- Where the project is to be there is nothing or a directory. -/
theorem makeProject_eq_writeProject (limits : Limits) (draws : Draws) (count : Int)
    (hplace : ∀ bytes, tree.node? (projectLocation tree) ≠ some (.file bytes)) :
    makeProject limits tree draws count =
      writeProject limits tree (generateFiles draws 0 count.toNat).1 := by
  unfold makeProject
  split
  · next bytes hfile => exact absurd hfile (hplace bytes)
  · rfl

theorem exists_makeProject_of_names {draws : Draws} {count : Int}
    (hplace : ∀ bytes, tree.node? (projectLocation tree) ≠ some (.file bytes))
    (hremovable : IsRemovable limits tree)
    (hnames : ∀ file ∈ (generateFiles draws 0 count.toNat).1,
      file.name.utf8ByteSize ≤ maxNameBytes) :
    ∃ made, makeProject limits tree draws count = ⟨made, .ok ()⟩ ∧
      IsProject tree made (generateFiles draws 0 count.toNat).1 := by
  rw [makeProject_eq_writeProject limits draws count hplace]
  exact exists_writeProject hremovable
    (fun file hfile => isFileName_of_mem hfile (hnames file hfile))
    (nodup_names draws 0 count.toNat)

theorem names_of_count {draws : Draws} {count : Int} (hcount : count ≤ 10 ^ 246) :
    ∀ file ∈ (generateFiles draws 0 count.toNat).1,
      file.name.utf8ByteSize ≤ maxNameBytes := by
  have hfew : count.toNat ≤ 10 ^ 246 := by
    rw [Int.toNat_le]
    exact_mod_cast hcount
  exact fun file hfile => utf8ByteSize_le_of_mem hfew hfile

/-- Where something lies too deep to be removed, no project is made. -/
theorem exists_makeProject_of_deep (draws : Draws) (count : Int)
    (hplace : ∀ bytes, tree.node? (projectLocation tree) ≠ some (.file bytes))
    (hdeep : ¬ IsRemovable limits tree) :
    ∃ left, makeProject limits tree draws count = ⟨left, .error .removalTooDeep⟩ ∧
      IsPartlyRemoved limits tree left := by
  obtain ⟨left, hleft, hremoved⟩ := exists_clear_of_deep hdeep
  refine ⟨left, ?_, hremoved⟩
  rw [makeProject_eq_writeProject limits draws count hplace, writeProject, hleft,
    Effect.andThen_error]

/-- The number of files is printed if it has no more digits than numbers may have. -/
theorem madeLine_ok_iff {count : Int} :
    (∃ line, madeLine count = .ok line) ↔ count.natAbs < 10 ^ Text.maxDigits := by
  rw [← Nat.length_toDigits_le_iff (by decide) (by decide)]
  unfold madeLine
  split
  · next hfew => simp [hfew]
  · next hmany => simp [hmany]

/-! ## Names that were written -/

theorem isFileName_of_writeText (names : List String) {name text : String}
    (h : writeText tree (names ++ [name]) text = ⟨made, .ok ()⟩) : isFileName name = true := by
  unfold writeText at h
  cases hwrite : tree.write? (projectLocation tree ++ (names ++ [name])) (bytesOf text) with
  | none => simp [hwrite, Effect.ofChange] at h
  | some after => exact Tree.isFileName_of_write? hwrite name (by simp)

theorem isFileName_of_writeFiles (h : writeFiles tree files = ⟨made, .ok ()⟩) :
    ∀ file ∈ files, isFileName file.name = true := by
  induction files generalizing tree with
  | nil => simp
  | cons file rest ih =>
      obtain ⟨next, ⟨⟩, hwrite, hrest⟩ := Effect.exists_of_andThen h
      exact List.forall_mem_cons.mpr ⟨isFileName_of_writeText ["src"] hwrite, ih hrest⟩

/-- A project can only be made when all names are short enough. -/
theorem isFileName_of_writeProject (h : writeProject limits tree files = ⟨made, .ok ()⟩) :
    ∀ file ∈ files, isFileName file.name = true := by
  obtain ⟨cleared, ⟨⟩, -, hfiles⟩ := Effect.exists_of_andThen h
  obtain ⟨sources, ⟨⟩, hsources, -⟩ := Effect.exists_of_andThen hfiles
  exact isFileName_of_writeFiles hsources

end DependencyAudit.Benchmark
