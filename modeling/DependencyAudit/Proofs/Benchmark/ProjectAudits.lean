import DependencyAudit.Benchmark.Run
import DependencyAudit.Proofs.Benchmark.ProjectScan
import DependencyAudit.Proofs.Run.Noninterference

/-!
# The audits of a project

The benchmark times two audits of the project it has made, one in each mode.  Both find
the same issues, and always some: the manifest declares a package that no file imports.
What else they find depends on chance, but only through the modules that were drawn for
the files.
-/

namespace DependencyAudit.Benchmark

open Source CodeText

variable {limits : Limits} {tree made : Tree} {files : List GeneratedFile}

/-- A module was drawn for one of the files. -/
def IsDrawn (files : List GeneratedFile) (library : String) : Prop :=
  ∃ file ∈ files, library ∈ file.imports

/-- What the audits of a project report, by the modules that were drawn for its files. -/
structure IsProjectAudit (files : List GeneratedFile) (analysis : Analysis) : Prop where
  ascending : analysis.unused.Pairwise (· < ·)
  mem_unused : ∀ name, name ∈ analysis.unused ↔
    name = ofString "left-pad" ∨ (name = ofString "react" ∧ ¬ IsDrawn files "react") ∨
      (name = ofString "lodash" ∧ ¬ IsDrawn files "lodash" ∧ ¬ IsDrawn files "lodash/map")
  misplaced_of_drawn : IsDrawn files "express" → analysis.misplaced = [ofString "express"]
  misplaced_of_not_drawn : ¬ IsDrawn files "express" → analysis.misplaced = []

/-! ## Packages in use -/

/-- A package is used when a module that it provides was drawn. -/
theorem IsProject.isUsed_iff (h : IsProject tree made files) (hfiles : AreGenerated files)
    {name : String} : IsUsed made sourcesPath name ↔
      ∃ library ∈ libraries.filter fun library => packageName? library = some name,
        IsDrawn files library := by
  constructor
  · rintro ⟨location, names, bytes, specifier, hsource, hspecifier, hpackage⟩
    obtain ⟨-, file, hfile, -, rfl⟩ := (h.isSource_iff hfiles).mp hsource
    rw [hfiles.specifiersOfBytes hfile] at hspecifier
    refine ⟨specifier, ?_, file, hfile, hspecifier⟩
    rw [List.mem_filter, decide_eq_true_eq]
    exact ⟨hfiles.mem_libraries hfile hspecifier, hpackage⟩
  · rintro ⟨library, hlibrary, file, hfile, hdrawn⟩
    rw [List.mem_filter, decide_eq_true_eq] at hlibrary
    refine ⟨_, [file.name], bytesOf file.text, library,
      (h.isSource_iff hfiles).mpr ⟨rfl, file, hfile, rfl, rfl⟩, ?_, hlibrary.2⟩
    rw [hfiles.specifiersOfBytes hfile]
    exact hdrawn

theorem filter_packageName? :
    (libraries.filter fun library => packageName? library = some "react") = ["react"] ∧
      (libraries.filter fun library => packageName? library = some "lodash") =
        ["lodash", "lodash/map"] ∧
      (libraries.filter fun library => packageName? library = some "left-pad") = [] ∧
      (libraries.filter fun library => packageName? library = some "express") = ["express"] ∧
      (libraries.filter fun library => packageName? library = some "typescript") = [] := by
  decide +kernel

/-! ## What is found -/

section Found

variable {options : CommandLine.Options} {analysis : Analysis}

/-- A declared name is in use when a module of that package was drawn. -/
theorem IsProject.isInUse_iff (h : IsProject tree made files) (hfiles : AreGenerated files)
    (hroot : Path.parse options.root = sourcesPath) (name : String) :
    Run.IsInUse made options (ofString name) ↔
      ∃ library ∈ libraries.filter fun library => packageName? library = some name,
        IsDrawn files library := by
  rw [Run.isInUse_ofString, hroot]
  exact h.isUsed_iff hfiles

theorem IsProject.mem_unused_iff (h : IsProject tree made files) (hfiles : AreGenerated files)
    (hroot : Path.parse options.root = sourcesPath) (hsome : options.checkAll = false)
    (hignored : options.ignored = [])
    (haudit : Run.IsAudit made options (Manifest.ofJson projectManifest) analysis)
    (name : CodeText) :
    name ∈ analysis.unused ↔
      name = ofString "left-pad" ∨ (name = ofString "react" ∧ ¬ IsDrawn files "react") ∨
        (name = ofString "lodash" ∧ ¬ IsDrawn files "lodash" ∧
          ¬ IsDrawn files "lodash/map") := by
  obtain ⟨hreact, hlodash, hpad, -, -⟩ := filter_packageName?
  have hused := h.isInUse_iff hfiles hroot
  have hdeclared : (∃ cls, (cls = DependencyClass.production ∨ options.checkAll = true) ∧
        name ∈ (Manifest.ofJson projectManifest).names cls) ↔
      name = ofString "react" ∨ name = ofString "lodash" ∨ name = ofString "left-pad" := by
    simp [hsome, names_projectManifest.1]
  rw [haudit.mem_unused, hdeclared, hignored]
  constructor
  · rintro ⟨rfl | rfl | rfl, -, hunused⟩
    · exact Or.inr (Or.inl ⟨rfl, by simpa [hused, hreact] using hunused⟩)
    · exact Or.inr (Or.inr ⟨rfl, by simpa [hused, hlodash] using hunused⟩)
    · exact Or.inl rfl
  · rintro (rfl | ⟨rfl, hunused⟩ | ⟨rfl, hunused⟩)
    · simp [hused, hpad]
    · simpa [hused, hreact] using hunused
    · simpa [hused, hlodash] using hunused

theorem IsProject.mem_misplaced_iff (h : IsProject tree made files)
    (hfiles : AreGenerated files) (hroot : Path.parse options.root = sourcesPath)
    (hignored : options.ignored = [])
    (haudit : Run.IsAudit made options (Manifest.ofJson projectManifest) analysis)
    (name : CodeText) :
    name ∈ analysis.misplaced ↔ name = ofString "express" ∧ IsDrawn files "express" := by
  obtain ⟨-, -, -, hexpress, htypescript⟩ := filter_packageName?
  have hused := h.isInUse_iff hfiles hroot
  rw [haudit.mem_misplaced, names_projectManifest.2, hignored]
  constructor
  · rintro ⟨hmem, -, huse⟩
    simp only [List.mem_cons, List.not_mem_nil, or_false] at hmem
    rcases hmem with rfl | rfl
    · exact ⟨rfl, by simpa [hused, hexpress] using huse⟩
    · simp [hused, htypescript] at huse
  · rintro ⟨rfl, hdrawn⟩
    exact ⟨by simp, by simp, by simpa [hused, hexpress] using hdrawn⟩

theorem IsProject.isProjectAudit (h : IsProject tree made files) (hfiles : AreGenerated files)
    (hroot : Path.parse options.root = sourcesPath) (hsome : options.checkAll = false)
    (hignored : options.ignored = [])
    (haudit : Run.IsAudit made options (Manifest.ofJson projectManifest) analysis) :
    IsProjectAudit files analysis := by
  have hmisplaced := h.mem_misplaced_iff hfiles hroot hignored haudit
  refine ⟨haudit.unused_ascending, h.mem_unused_iff hfiles hroot hsome hignored haudit, ?_, ?_⟩
  · intro hdrawn
    refine haudit.misplaced_ascending.eq_of_mem_iff (List.pairwise_singleton ..) ?_
    intro name
    simp [hmisplaced, hdrawn]
  · intro hnot
    rw [List.eq_nil_iff_forall_not_mem]
    intro name
    simp [hmisplaced, hnot]

end Found

/-! ## The two audits -/

/-- The options of the timed audits. -/
def auditOptions (parallel : Bool) : CommandLine.Options :=
  { root := "benchmark_src/src", manifest := "benchmark_src/package.json", parallel }

theorem parse_auditArguments :
    (CommandLine.parse auditArguments).value = .audit (auditOptions false) := by
  decide +kernel

theorem parse_parallelArguments :
    (CommandLine.parse (auditArguments ++ ["--parallel"])).value =
      .audit (auditOptions true) := by
  decide +kernel

/-- The outcome of an audit of a project does not depend on the mode. -/
theorem exists_audit (h : IsProject tree made files) (hfiles : AreGenerated files)
    (hlevels : 2 ≤ limits.containers) (terminal : Terminal) :
    ∃ outcome analysis report, IsProjectAudit files analysis ∧ outcome.exitCode = 1 ∧
      string? (Report.render terminal analysis .text) = some report ∧
      outcome.stdout = report ++ "\n" ∧
      ∀ parallel tokens, (CommandLine.parse tokens).value = .audit (auditOptions parallel) →
        Run.run limits made terminal tokens = .ok outcome := by
  obtain ⟨hroot, hmanifest⟩ := parse_paths
  have hscan : IsScannable limits made sourcesPath := h.isScannable hfiles
  obtain ⟨sources, hsources⟩ := hscan.exists_files
  obtain ⟨used, -, hused⟩ := usedPackages_sequential hsources
  rw [← hroot] at hsources hused
  have haudit : Run.IsAudit made (auditOptions false) (Manifest.ofJson projectManifest)
      ((Analysis.ofManifest (Manifest.ofJson projectManifest) (used.value.map ofString)
        false).ignoring []) :=
    Run.isAudit_ignoring hused
  generalize hanalysis : Analysis.ofManifest (Manifest.ofJson projectManifest)
    (used.value.map ofString) false = analysis at haudit
  have hfound := h.isProjectAudit hfiles hroot rfl rfl haudit
  obtain ⟨report, hreport⟩ :=
    Report.exists_printed terminal .text (haudit.isPrintable isPlain_projectManifest_names)
  refine ⟨⟨1, report ++ "\n", ""⟩, analysis.ignoring [], report, hfound, rfl, hreport, rfl, ?_⟩
  intro parallel tokens hparse
  obtain ⟨found, hlists, hrun⟩ := Run.run_of_files terminal hparse
    (hmanifest ▸ h.read_eq_ok hlevels) hsources
  -- The package that no module belongs to is always found.
  have hsome : (analysis.ignoring []).unused ≠ [] :=
    List.ne_nil_of_mem ((hfound.mem_unused (ofString "left-pad")).mpr (Or.inl rfl))
  have hissues : (if (analysis.ignoring []).hasIssues = true then 1 else 0) = 1 :=
    (Run.exitCode_eq _).trans (if_neg fun hnone => hsome hnone.1)
  rw [hrun, hlists.unique hused]
  have hfinished : Run.finished terminal (auditOptions false) "" analysis =
      .ok ⟨1, report ++ "\n", ""⟩ := by
    rw [← hissues]
    simp only [Run.finished, auditOptions, List.map_nil, hreport]
  rw [← hfinished, ← hanalysis]
  rfl

theorem comparison_eq_ok {sequential : Float} (h : (sequential == 0) = false)
    (parallel : Float) : ∃ line, comparison sequential parallel = .ok line := by
  unfold comparison
  rw [h, if_neg Bool.false_ne_true]
  split
  · exact ⟨_, rfl⟩
  · exact ⟨_, rfl⟩

theorem madeLine_of_count {count : Int} (hcount : count ≤ 10 ^ 246)
    (hdigits : -10 ^ Text.maxDigits < count) : ∃ line, madeLine count = .ok line := by
  have hpowers : (10 : Int) ^ 246 < 10 ^ Text.maxDigits :=
    pow_lt_pow_right₀ (by decide) (by decide)
  have hfew : count.natAbs < 10 ^ Text.maxDigits := by
    zify
    exact abs_lt.mpr ⟨hdigits, hcount.trans_lt hpowers⟩
  exact madeLine_ok_iff.mpr hfew

theorem madeLine_of_digits : madeLine (-10 ^ Text.maxDigits) = .error .numberTooLong := by
  have hten : (10 : Int).natAbs = 10 := rfl
  have hmany : ¬ ∃ line, madeLine (-10 ^ Text.maxDigits) = .ok line := by
    rw [madeLine_ok_iff, Int.natAbs_neg, Int.natAbs_pow, hten]
    exact lt_irrefl _
  unfold madeLine at hmany ⊢
  split
  · next hfew => exact absurd ⟨_, if_pos hfew⟩ hmany
  · rfl

/-- A benchmark whose installation succeeds runs the two audits of its project, and they end
with one and the same outcome, which has issues.  What stands in the place of the project
must not be too deep to be removed, and the manifest needs two containers.  The upper bound
on the number of files is that of the names of files, as after 246 digits there is no room
for another one; the lower one is that of the numbers that can be printed. -/
theorem audits_find_the_same_issues {surroundings : Surroundings} {installation : Installation}
    {count : Int} (hplace : ∀ bytes, tree.node? (projectLocation tree) ≠ some (.file bytes))
    (hremovable : IsRemovable limits tree) (hlevels : 2 ≤ limits.containers)
    (hcount : count ≤ 10 ^ 246) (hdigits : -10 ^ Text.maxDigits < count)
    (hinstallation : surroundings.installation = some installation)
    (hinstalled : installation.exitCode = 0)
    (hclock : (elapsed (surroundings.clock 0) (surroundings.clock 1) == 0) = false) :
    ∃ made transcript outcome analysis report,
      run limits tree surroundings count = ⟨made, .ok transcript⟩ ∧
      transcript.calls = [.install installCommand,
        .audit (auditCommand auditArguments) outcome,
        .audit (auditCommand (auditArguments ++ ["--parallel"])) outcome] ∧
      outcome.exitCode = 1 ∧
      string? (Report.render { surroundings.terminal with output := .pipe } analysis .text) =
        some report ∧
      outcome.stdout = report ++ "\n" ∧
      IsProjectAudit (generateFiles surroundings.draws 0 count.toNat).1 analysis := by
  have hnames : ∀ file ∈ (generateFiles surroundings.draws 0 count.toNat).1,
      file.name.utf8ByteSize ≤ maxNameBytes := names_of_count hcount
  obtain ⟨made, hmade, hproject⟩ := exists_makeProject_of_names hplace hremovable hnames
  obtain ⟨outcome, analysis, report, haudit, hexit, hreport, hstdout, hrun⟩ :=
    exists_audit hproject (areGenerated_of_names hnames) hlevels
      { surroundings.terminal with output := .pipe }
  obtain ⟨line, hline⟩ :=
    comparison_eq_ok hclock (elapsed (surroundings.clock 2) (surroundings.clock 3))
  have hsequential : callAudit limits made surroundings.terminal auditArguments =
      .ok (.audit (auditCommand auditArguments) outcome) := by
    simp only [callAudit, hrun false _ parse_auditArguments]
  have hparallel : callAudit limits made surroundings.terminal
      (auditArguments ++ ["--parallel"]) =
      .ok (.audit (auditCommand (auditArguments ++ ["--parallel"])) outcome) := by
    simp only [callAudit, hrun true _ parse_parallelArguments]
  obtain ⟨printed, hprinted⟩ := madeLine_of_count hcount hdigits
  have hmake : make limits tree surroundings.draws count = ⟨made, .ok printed⟩ := by
    rw [make, hmade, Effect.andThen_ok, hprinted]
  have hresult : ∃ transcript, run limits tree surroundings count = ⟨made, .ok transcript⟩ ∧
      transcript.calls = [.install installCommand,
        .audit (auditCommand auditArguments) outcome,
        .audit (auditCommand (auditArguments ++ ["--parallel"])) outcome] := by
    simp only [run, hmake, Effect.andThen_ok, runOn, hinstallation, if_pos hinstalled, measure,
      hsequential, hparallel, hline]
    exact ⟨_, rfl, rfl⟩
  obtain ⟨transcript, htranscript, hcalls⟩ := hresult
  exact ⟨made, transcript, outcome, analysis, report, htranscript, hcalls, hexit, hreport,
    hstdout, haudit⟩

/-- Draws that count up, and a clock that goes on by a second at each reading. -/
def steadySurroundings : Surroundings where
  draws := { stream := id }
  clock := fun reading => 1000000 * reading

theorem steadyClock :
    (elapsed (steadySurroundings.clock 0) (steadySurroundings.clock 1) == 0) = false := by
  decide

theorem node?_sampleProject_place (names : List String) :
    Tree.sampleProject.node? (projectLocation Tree.sampleProject ++ names) = none := by
  simp [Tree.node?, projectLocation, projectName, Tree.sampleProject]

theorem not_file_sampleProject :
    ∀ bytes, Tree.sampleProject.node? (projectLocation Tree.sampleProject) ≠
      some (.file bytes) := by
  intro bytes hfile
  have hnone := node?_sampleProject_place []
  rw [List.append_nil, hfile] at hnone
  contradiction

theorem isRemovable_sampleProject : IsRemovable limits Tree.sampleProject := by
  intro names node hnode
  rw [node?_sampleProject_place] at hnode
  contradiction

theorem audits_of_two_files :
    (∀ bytes, Tree.sampleProject.node? (projectLocation Tree.sampleProject) ≠
        some (.file bytes)) ∧
      IsRemovable .standard Tree.sampleProject ∧ 2 ≤ Limits.standard.containers ∧
      (2 : Int) ≤ 10 ^ 246 ∧ -10 ^ Text.maxDigits < (2 : Int) ∧
      steadySurroundings.installation = some {} ∧ ({} : Installation).exitCode = 0 ∧
      (elapsed (steadySurroundings.clock 0) (steadySurroundings.clock 1) == 0) = false ∧
      ∃ made transcript outcome analysis report,
        run .standard Tree.sampleProject steadySurroundings 2 = ⟨made, .ok transcript⟩ ∧
        transcript.calls = [.install installCommand,
          .audit (auditCommand auditArguments) outcome,
          .audit (auditCommand (auditArguments ++ ["--parallel"])) outcome] ∧
        outcome.exitCode = 1 ∧
        string? (Report.render { steadySurroundings.terminal with output := .pipe }
          analysis .text) = some report ∧
        outcome.stdout = report ++ "\n" ∧
        IsProjectAudit (generateFiles steadySurroundings.draws 0 2).1 analysis := by
  have hplace := not_file_sampleProject
  have hremovable : IsRemovable .standard Tree.sampleProject := isRemovable_sampleProject
  have hlevels : 2 ≤ Limits.standard.containers := by decide
  have hcount : (2 : Int) ≤ 10 ^ 246 := by norm_num
  have hdigits : -10 ^ Text.maxDigits < (2 : Int) := by
    have hpositive : (0 : Int) < 10 ^ Text.maxDigits := by positivity
    omega
  exact ⟨hplace, hremovable, hlevels, hcount, hdigits, rfl, rfl, steadyClock,
    audits_find_the_same_issues hplace hremovable hlevels hcount hdigits rfl rfl steadyClock⟩

/-- Where directories are so deep one in another that they cannot be removed, the benchmark
ends before an audit, and so it does when its number of files has too many digits. -/
theorem not_audits_over_nestedTree :
    (∀ bytes, (nestedTree 995).node? (projectLocation (nestedTree 995)) ≠
        some (.file bytes)) ∧
      steadySurroundings.installation = some {} ∧ ({} : Installation).exitCode = 0 ∧
      (elapsed (steadySurroundings.clock 0) (steadySurroundings.clock 1) == 0) = false ∧
      (∃ left, run .standard (nestedTree 995) steadySurroundings 2 =
        ⟨left, .error .removalTooDeep⟩) ∧
      ∃ made, run .standard Tree.sampleProject steadySurroundings (-10 ^ Text.maxDigits) =
        ⟨made, .error .numberTooLong⟩ := by
  have hplace := not_file_nestedTree 995
  have hdeep : ¬ IsRemovable .standard (nestedTree 995) :=
    not_isRemovable_nestedTree (by decide)
  obtain ⟨left, hleft, -⟩ := exists_makeProject_of_deep steadySurroundings.draws 2 hplace hdeep
  have hnames : ∀ file ∈
      (generateFiles steadySurroundings.draws 0 (-10 ^ Text.maxDigits : Int).toNat).1,
      file.name.utf8ByteSize ≤ maxNameBytes := by
    apply names_of_count
    have hpositive : (0 : Int) < 10 ^ Text.maxDigits := by positivity
    have hmany : (0 : Int) < 10 ^ 246 := by positivity
    omega
  have hremovable : IsRemovable .standard Tree.sampleProject := isRemovable_sampleProject
  obtain ⟨made, hmade, -⟩ :=
    exists_makeProject_of_names not_file_sampleProject hremovable hnames
  refine ⟨hplace, rfl, rfl, steadyClock, ⟨left, ?_⟩, made, ?_⟩
  · rw [run, make, hleft, Effect.andThen_error, Effect.andThen_error]
  · rw [run, make, hmade, Effect.andThen_ok, madeLine_of_digits, Effect.andThen_error]

end DependencyAudit.Benchmark
