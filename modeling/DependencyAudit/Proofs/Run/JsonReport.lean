import DependencyAudit.Proofs.Manifest.DeclaredNames
import DependencyAudit.Proofs.Manifest.Reading
import DependencyAudit.Proofs.Report.PrintedNames
import DependencyAudit.Proofs.Source.SourceScan
import DependencyAudit.Run

/-!
# The JSON report of a run

A run goes from the command line to its report through the manifest, the scan, the
packages in use and the analysis.  What the report says is stated without these
stages: which names a manifest declares, which of them the sources import, and which
are to be ignored.  Besides a bad manifest three things keep a run from its report: a
path too long to be asked about, a directory too deep to go down from, and a listed
name that cannot be printed.
-/

namespace DependencyAudit.Run

open CommandLine CodeText

variable {limits : Limits} {tree : Tree} {tokens : List String} {options : Options}
variable {manifest : Manifest} {events : List Event}

/-- The name is, character by character, that of a package which the sources import. -/
def IsInUse (tree : Tree) (options : Options) (name : CodeText) : Prop :=
  ∃ package, name = ofString package ∧ Source.IsUsed tree (Path.parse options.root) package

/-- The lists of an audit: the checked names that nothing imports, and the development names
that something imports, both in ascending order and without the ignored names. -/
structure IsAudit (tree : Tree) (options : Options) (manifest : Manifest)
    (analysis : Analysis) : Prop where
  unused_ascending : analysis.unused.Pairwise (· < ·)
  misplaced_ascending : analysis.misplaced.Pairwise (· < ·)
  mem_unused : ∀ name, name ∈ analysis.unused ↔
    (∃ cls, (cls = .production ∨ options.checkAll = true) ∧ name ∈ manifest.names cls) ∧
      name ∉ options.ignored.map ofString ∧ ¬ IsInUse tree options name
  mem_misplaced : ∀ name, name ∈ analysis.misplaced ↔
    name ∈ manifest.names .development ∧ name ∉ options.ignored.map ofString ∧
      IsInUse tree options name

/-! ## The command line -/

theorem workers_of_parse (h : (parse tokens).value = .audit options) :
    1 ≤ options.workers ∧ options.workers ≤ maxWorkers := by
  unfold parse at h
  split at h
  · contradiction
  · simp only at h
    split at h
    · contradiction
    · next read _ =>
        unfold checkWorkers at h
        split at h
        · contradiction
        · next hfew =>
            split at h
            · contradiction
            · next hmany =>
                cases h
                exact ⟨by omega, by omega⟩

theorem hasWorkers_mode (h : (parse tokens).value = .audit options) :
    options.mode.HasWorkers := by
  unfold Options.mode
  split
  · exact (workers_of_parse h).1
  · trivial

theorem parse_json_root {value : String} (h : value.toList.head? ≠ some '-') :
    (parse ["-j", "-d", value]).value = .audit { format := .json, root := value } := by
  have hstart : startsWith value "-" = false := by
    rw [startsWith]
    cases hvalue : value.toList with
    | nil => rfl
    | cons c rest =>
        rw [hvalue, List.head?_cons, Ne, Option.some.injEq] at h
        simp [List.isPrefixOf, Ne.symm h]
  have hne : ∀ text : String, text.toList.head? = some '-' → value ≠ text := by
    intro text htext heq
    exact h (by rw [heq, htext])
  have hhelp : ["-j", "-d", value].any helpOptions.contains = false := by
    simp [helpOptions, hne "-h" rfl, hne "--help" rfl]
  have hknown : splitKnown ["-j", "-d", value] = (["-j", "-d", value], []) := by
    have hflag : isSetting "-j" = false ∧ isFlag "-j" = true := by cbv
    have hsetting : isSetting "-d" = true := by cbv
    simp [splitKnown, hflag, hsetting]
  have hmark : mark vocabulary ["-j", "-d", value] =
      [⟨"-j", .option "-j" none⟩, ⟨"-d", .option "-d" none⟩, ⟨value, .operand⟩] := by
    have hflag : classify vocabulary "-j" = .option "-j" none := by cbv
    have hsetting : classify vocabulary "-d" = .option "-d" none := by cbv
    have hvalue : classify vocabulary value = .operand := by
      rw [classify, hstart]
      rfl
    simp [mark, hflag, hsetting, hvalue, hne "--" rfl]
  have hread : readKnown ["-j", "-d", value] = .ok { format := .json, root := value } := by
    have hflag : actions.takesValue "-j" = false ∧
        actions.apply {} "-j" none = .ok { format := .json } := by
      constructor <;> cbv
    have hsetting : actions.takesValue "-d" = true ∧ Flag.ofName? "-d" = none ∧
        Setting.ofName? "-d" = some .root := by
      refine ⟨?_, ?_, ?_⟩ <;> cbv
    have hroot : actions.apply { format := .json } "-d" (some value) =
        .ok { format := .json, root := value } := by
      simp only [actions, applyOption, hsetting, Options.set]
    rw [readKnown, hmark]
    simp [Actions.consume, hflag, hsetting, hroot, Except.map]
  simp [parse, hhelp, hknown, hread, checkWorkers, maxWorkers]

/-! ## The analysis -/

theorem isInUse_ofString {package : String} :
    IsInUse tree options (ofString package) ↔
      Source.IsUsed tree (Path.parse options.root) package := by
  simp [IsInUse, ofString_inj]

theorem mem_map_ofString_iff {used : List String}
    (h : Source.ListsUsed tree (Path.parse options.root) used) {name : CodeText} :
    name ∈ used.map ofString ↔ IsInUse tree options name := by
  simp only [List.mem_map, IsInUse, h.mem_iff, and_comm, eq_comm]

theorem isAudit_ignoring {used : List String}
    (h : Source.ListsUsed tree (Path.parse options.root) used) :
    IsAudit tree options manifest
      ((Analysis.ofManifest manifest (used.map ofString) options.checkAll).ignoring
        (options.ignored.map ofString)) := by
  rw [Analysis.ignoring_eq]
  refine ⟨?_, ?_, ?_, ?_⟩
  · exact (Ascending.pairwise_ofList _).filter _
  · exact (Ascending.pairwise_ofList _).filter _
  · intro name
    rw [Analysis.ofManifest, List.mem_filter, Analysis.mem_unusedNames, Manifest.mem_declared,
      mem_map_ofString_iff h, and_assoc, Bool.not_eq_true', List.contains_eq_mem,
      decide_eq_false_iff_not]
    exact and_congr_right fun _ => and_comm
  · intro name
    rw [Analysis.ofManifest, List.mem_filter, Analysis.mem_misplacedNames,
      mem_map_ofString_iff h, and_assoc, Bool.not_eq_true', List.contains_eq_mem,
      decide_eq_false_iff_not]
    exact and_congr_right fun _ => and_comm

/-- A name that an audit lists stands in the manifest. -/
theorem IsAudit.isPrintable {analysis : Analysis} (h : IsAudit tree options manifest analysis)
    (hnames : ∀ cls, ∀ name ∈ manifest.names cls, IsPlain name) : analysis.IsPrintable := by
  rintro name (hunused | hmisplaced)
  · obtain ⟨⟨cls, -, hdeclared⟩, -⟩ := (h.mem_unused name).mp hunused
    exact hnames cls name hdeclared
  · exact hnames .development name ((h.mem_misplaced name).mp hmisplaced).1

/-! ## The stages of a run -/

/-- A run whose scan succeeds reports the analysis against the packages in use. -/
theorem run_of_files (terminal : Terminal) {sources : Logged (List Path)}
    (hparse : (parse tokens).value = .audit options)
    (hmanifest : Manifest.read limits tree (Path.parse options.manifest) =
      .ok ⟨.ok manifest, events⟩)
    (hfiles : Source.files limits tree (Path.parse options.root) = .ok sources) :
    ∃ used : Logged (List String), Source.ListsUsed tree (Path.parse options.root) used.value ∧
      run limits tree terminal tokens = finished terminal options
        (debugLines options (events ++ used.events))
        (Analysis.ofManifest manifest (used.value.map ofString) options.checkAll) := by
  obtain ⟨used, hused, hlists⟩ := Source.usedPackages_eq_ok (hasWorkers_mode hparse) hfiles
  refine ⟨used, hlists, ?_⟩
  simp only [run, hparse, audit, hmanifest, Analysis.ofSources, hused]

theorem run_of_files_error (terminal : Terminal) {abort : Abort}
    (hparse : (parse tokens).value = .audit options)
    (hmanifest : Manifest.read limits tree (Path.parse options.manifest) =
      .ok ⟨.ok manifest, events⟩)
    (hfiles : Source.files limits tree (Path.parse options.root) = .error abort) :
    run limits tree terminal tokens = .error abort := by
  simp only [run, hparse, audit, hmanifest, Analysis.ofSources,
    Source.usedPackages_eq_error hfiles]

/-- Once the packages in use are known, only a name can keep a run from its outcome. -/
theorem finished_ok_or (terminal : Terminal) (options : Options) (debug : String)
    (analysis : Analysis) :
    (∃ outcome, finished terminal options debug analysis = .ok outcome) ∨
      finished terminal options debug analysis = .error .unpairedSurrogate ∧
        ¬ (analysis.ignoring (options.ignored.map ofString)).IsPrintable := by
  unfold finished
  simp only
  split
  · next hnone => exact Or.inr ⟨rfl, (Report.string?_render_eq_none_iff ..).mp hnone⟩
  · exact Or.inl ⟨_, rfl⟩

/-! ## The report -/

theorem exitCode_eq (analysis : Analysis) :
    (if analysis.hasIssues = true then 1 else 0) =
      if analysis.unused = [] ∧ analysis.misplaced = [] then 0 else 1 := by
  obtain ⟨unused, misplaced⟩ := analysis
  cases unused with
  | cons name rest => simp [Analysis.hasIssues]
  | nil => cases misplaced <;> simp [Analysis.hasIssues]

/-- A run that asks for JSON and whose manifest can be read prints one JSON document, which
is that of the audit, and exits with one exactly when the audit lists a name.  If a listed
name cannot be printed, there is no document. -/
theorem run_json (limits : Limits) (terminal : Terminal)
    (hparse : (parse tokens).value = .audit options)
    (hformat : options.format = .json)
    (hmanifest : Manifest.read limits tree (Path.parse options.manifest) =
      .ok ⟨.ok manifest, events⟩)
    (hscan : Source.IsScannable limits tree (Path.parse options.root)) :
    ∃ analysis, IsAudit tree options manifest analysis ∧
      (analysis.IsPrintable → ∃ outcome document,
        run limits tree terminal tokens = .ok outcome ∧
        outcome.stdout = document ++ "\n" ∧
        Json.Element document.toList (.object [
          ("unused", .array (analysis.unused.map Json.string)),
          ("misplaced", .array (analysis.misplaced.map Json.string)),
          ("totalIssues", .integer (analysis.unused.length + analysis.misplaced.length))]) ∧
        outcome.exitCode = if analysis.unused = [] ∧ analysis.misplaced = [] then 0 else 1) ∧
      (¬ analysis.IsPrintable →
        run limits tree terminal tokens = .error .unpairedSurrogate) := by
  obtain ⟨sources, hfiles⟩ := hscan.exists_files
  obtain ⟨used, hlists, hrun⟩ := run_of_files terminal hparse hmanifest hfiles
  refine ⟨_, isAudit_ignoring hlists, ?_, ?_⟩
  · intro hplain
    obtain ⟨document, hdocument⟩ := Report.exists_printed terminal .json hplain
    simp only [finished, hformat, hdocument] at hrun
    refine ⟨_, document, hrun, rfl, Report.element_of_printed hdocument, exitCode_eq _⟩
  · intro hmark
    have hnone := (Report.string?_render_eq_none_iff terminal _ .json).mpr hmark
    rw [hrun, finished, hformat, hnone]

theorem read_sampleProject_names :
    ∃ manifest events,
      Manifest.read .standard Tree.sampleProject (Path.parse defaultManifest) =
        .ok ⟨.ok manifest, events⟩ ∧
      manifest.names .production = (["a", "b"] : List CodeText) ∧
      manifest.names .development = (["c"] : List CodeText) ∧ manifest.names .peer = [] := by
  have hbytes : Manifest.jsonOfBytes .standard (Utf8.encode Tree.sampleManifest.toList) = _ :=
    Manifest.jsonOfBytes_of_holdsValue Manifest.holdsValue_sampleManifest
      ((Manifest.isWithin_sampleManifest _ Manifest.holdsValue_sampleManifest).mono
        (by decide) (by decide))
  refine ⟨_, _, Manifest.read_eq_ok Tree.read_sampleManifest hbytes, ?_, ?_, ?_⟩ <;> decide

theorem isPlain_sampleProject_names
    (hproduction : manifest.names .production = (["a", "b"] : List CodeText))
    (hdevelopment : manifest.names .development = (["c"] : List CodeText))
    (hpeer : manifest.names .peer = []) :
    ∀ cls, ∀ name ∈ manifest.names cls, IsPlain name := by
  intro cls
  cases cls with
  | production => simp [hproduction]
  | development => simp [hdevelopment]
  | peer => simp [hpeer]

/-- In the small project a scan is all that can keep a run from its outcome. -/
theorem exists_outcome_sampleProject (terminal : Terminal)
    (hparse : (parse tokens).value = .audit options)
    (hmanifest : options.manifest = defaultManifest)
    (hscan : Source.IsScannable .standard Tree.sampleProject (Path.parse options.root)) :
    ∃ outcome, run .standard Tree.sampleProject terminal tokens = .ok outcome := by
  obtain ⟨manifest, events, hread, hproduction, hdevelopment, hpeer⟩ := read_sampleProject_names
  rw [← hmanifest] at hread
  obtain ⟨sources, hfiles⟩ := hscan.exists_files
  obtain ⟨used, hlists, hrun⟩ := run_of_files terminal hparse hread hfiles
  rw [hrun]
  rcases finished_ok_or terminal options _ _ with houtcome | ⟨-, hmark⟩
  · exact houtcome
  · exact absurd ((isAudit_ignoring hlists).isPrintable
      (isPlain_sampleProject_names hproduction hdevelopment hpeer)) hmark

theorem run_json_sampleProject :
    (parse ["-j", "-d", "src"]).value = .audit { format := .json, root := "src" } ∧
      Source.IsScannable .standard Tree.sampleProject (Path.parse "src") ∧
      ∃ manifest events analysis outcome document,
        Manifest.read .standard Tree.sampleProject (Path.parse defaultManifest) =
          .ok ⟨.ok manifest, events⟩ ∧
        IsAudit Tree.sampleProject { format := .json, root := "src" } manifest analysis ∧
        run .standard Tree.sampleProject {} ["-j", "-d", "src"] = .ok outcome ∧
        outcome.stdout = document ++ "\n" ∧
        Json.Element document.toList (.object [
          ("unused", .array (analysis.unused.map Json.string)),
          ("misplaced", .array (analysis.misplaced.map Json.string)),
          ("totalIssues", .integer (analysis.unused.length + analysis.misplaced.length))]) ∧
        outcome.exitCode = if analysis.unused = [] ∧ analysis.misplaced = [] then 0 else 1 := by
  have hparse : (parse ["-j", "-d", "src"]).value = .audit { format := .json, root := "src" } :=
    parse_json_root (by decide)
  have hscan := Source.isScannable_sampleProject
  obtain ⟨manifest, events, hmanifest, hproduction, hdevelopment, hpeer⟩ :=
    read_sampleProject_names
  have hnames := isPlain_sampleProject_names hproduction hdevelopment hpeer
  obtain ⟨analysis, haudit, hprinted, -⟩ := run_json .standard {} hparse rfl hmanifest hscan
  obtain ⟨outcome, document, h⟩ := hprinted (haudit.isPrintable hnames)
  exact ⟨hparse, hscan, manifest, events, analysis, outcome, document, hmanifest, haudit, h⟩

/-! ## A root too long for its sources -/

theorem head?_text_climbingPath (turns : Nat) :
    (Source.climbingPath turns).text.toList.head? = some 's' := by
  obtain ⟨rest, hrest⟩ : ∃ rest, Source.climbing turns = "src" :: rest := by
    cases turns with
    | zero => exact ⟨[], rfl⟩
    | succ turns => exact ⟨_, Source.climbing_succ turns⟩
  have htext : (Source.climbingPath turns).text = "/".intercalate ("src" :: rest) := by
    rw [Path.text, Source.climbingPath, hrest, if_neg (by simp), Path.anchorText,
      String.empty_append]
  rw [htext]
  cases rest with
  | nil => rfl
  | cons name more => simp [String.intercalate_cons_cons]

theorem parse_json_climbingPath (turns : Nat) :
    (parse ["-j", "-d", (Source.climbingPath turns).text]).value =
      .audit { format := .json, root := (Source.climbingPath turns).text } := by
  apply parse_json_root
  rw [head?_text_climbingPath]
  decide

/-- The manifest can be read, no segment of the root is long, and the root names a directory
with a source in it.  Yet there is no report, as the path of that source is too long. -/
theorem not_run_json_below_long_root :
    (parse ["-j", "-d", (Source.climbingPath 584).text]).value =
        .audit { format := .json, root := (Source.climbingPath 584).text } ∧
      (∃ manifest events,
        Manifest.read .standard Tree.sampleProject (Path.parse defaultManifest) =
          .ok ⟨.ok manifest, events⟩) ∧
      (∀ segment ∈ (Path.parse (Source.climbingPath 584).text).segments,
        segment.utf8ByteSize ≤ maxNameBytes) ∧
      Source.IsSource Tree.sampleProject (Path.parse (Source.climbingPath 584).text) ["src"]
        ["x.js"] (Utf8.encode "import 'a'".toList) ∧
      ∃ path, run .standard Tree.sampleProject {} ["-j", "-d", (Source.climbingPath 584).text] =
        .error (.inaccessible path .nameTooLong) := by
  have hparse := parse_json_climbingPath 584
  have hpath := Source.parse_climbingPath 584
  have hsource := Source.isSource_climbingPath 584 (by decide)
  obtain ⟨manifest, events, hmanifest, -⟩ := read_sampleProject_names
  obtain ⟨path, hfiles⟩ := Source.files_climbingPath
  refine ⟨hparse, ⟨manifest, events, hmanifest⟩, ?_, ?_, path, ?_⟩
  · rw [hpath]
    exact Source.segments_climbingPath 584
  · rw [hpath]
    exact hsource
  · apply run_of_files_error {} hparse hmanifest
    rw [hpath]
    exact hfiles

end DependencyAudit.Run
