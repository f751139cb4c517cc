import DependencyAudit.Proofs.Analysis.Classification
import DependencyAudit.Proofs.CommandLine.TokenScan
import DependencyAudit.Proofs.Run.JsonReport
import DependencyAudit.Proofs.Source.GrowingSources

/-!
# What the outcome of a run depends on

An audit looks at the names that the manifest declares in each class and at the
sources, by their names and bytes.  Two trees that agree in these give the same
outcome, whatever else they hold: versions, other members, hidden and excluded files,
files with other suffixes, files elsewhere.  The verbose mode is left out, as it tells
the number of sources and more.  Two things besides are seen, though not in the outcome
but by its absence: a path that is too long and a directory that is too deep end the
scan, also in a hidden directory.
-/

namespace DependencyAudit.Run

open CommandLine CodeText

variable {limits : Limits} {tree other : Tree} {tokens : List String} {options : Options}
variable {manifest : Manifest} {events : List Event}

/-- Two trees in which the manifest declares the same names in every class, and in which the
same sources stand below the root.  They need not stand at the same location. -/
structure LooksAlike (limits : Limits) (options : Options) (tree other : Tree) : Prop where
  manifests : ∃ manifest events changed others,
    Manifest.read limits tree (Path.parse options.manifest) = .ok ⟨.ok manifest, events⟩ ∧
    Manifest.read limits other (Path.parse options.manifest) = .ok ⟨.ok changed, others⟩ ∧
    ∀ cls name, name ∈ manifest.names cls ↔ name ∈ changed.names cls
  sources : ∀ names bytes,
    (∃ location, Source.IsSource tree (Path.parse options.root) location names bytes) ↔
      ∃ location, Source.IsSource other (Path.parse options.root) location names bytes

/-- What ends an audit of a tree whose manifest can be read: the depth of a directory, the
length of a path, or a declared name that cannot be printed. -/
inductive EndsEarly (limits : Limits) (options : Options) (tree : Tree) : Abort → Prop
  | deep (h : ¬ Source.IsShallow limits tree (Path.parse options.root)) :
      EndsEarly limits options tree .scanTooDeep
  | long {path : Path} (h : ¬ Source.HasShortPaths tree (Path.parse options.root)) :
      EndsEarly limits options tree (.inaccessible path .nameTooLong)
  | unprintable {manifest : Manifest} {events : List Event} {cls : DependencyClass}
      {name : CodeText}
      (hmanifest : Manifest.read limits tree (Path.parse options.manifest) =
        .ok ⟨.ok manifest, events⟩)
      (hname : name ∈ manifest.names cls) (hmark : ¬ IsPlain name) :
      EndsEarly limits options tree .unpairedSurrogate

/-! ## The verbose mode -/

theorem verbose_setFlag {flag : Flag} (h : flag ≠ .verbose) (options : Options) :
    (options.setFlag flag).verbose = options.verbose := by
  cases flag with
  | verbose => contradiction
  | text => rfl
  | json => rfl
  | all => rfl
  | parallel => rfl

theorem verbose_set {setting : Setting} {value : String} {next : Options}
    (h : options.set setting value = .ok next) : next.verbose = options.verbose := by
  cases setting with
  | root => cases h; rfl
  | manifest => cases h; rfl
  | ignored => cases h; rfl
  | workers =>
      simp only [Options.set] at h
      cases hvalue : Text.integer? value with
      | none => simp [hvalue] at h
      | some count =>
          simp only [hvalue, Except.ok.injEq] at h
          rw [← h]

/-- Only its own flag turns the verbose mode on; the flag may still be the value of a
setting. -/
theorem verbose_of_scan {final : Options} {skipped : List String}
    (hquiet : ∀ token ∈ tokens, token ∉ Flag.verbose.spellings)
    (h : scan options tokens = .ok (final, skipped)) : final.verbose = options.verbose := by
  fun_induction scan options tokens generalizing skipped with
  | case1 options =>
      cases h
      rfl
  | case2 options token rest flag hflag ih =>
      have hother : flag ≠ .verbose := by
        rintro rfl
        exact hquiet token (List.mem_cons_self ..) (Flag.mem_spellings_of_ofName? hflag)
      rw [ih (fun next hnext => hquiet next (List.mem_cons_of_mem token hnext)) h,
        verbose_setFlag hother]
  | case3 => contradiction
  | case4 => contradiction
  | case5 options token setting hsetting hflag value later hvalue next hset ih =>
      have hlater : ∀ token ∈ later, token ∉ Flag.verbose.spellings := by
        intro next hnext
        exact hquiet next (by simp [hnext])
      rw [ih hlater h, verbose_set hset]
  | case6 => contradiction
  | case7 => contradiction
  | case8 options token rest hsetting hflag setting value hassigned next hset ih =>
      rw [ih (fun next hnext => hquiet next (List.mem_cons_of_mem token hnext)) h,
        verbose_set hset]
  | case9 => contradiction
  | case10 options token rest hsetting hflag hassigned last others hrest ih =>
      cases h
      exact ih (fun next hnext => hquiet next (List.mem_cons_of_mem token hnext)) hrest

theorem verbose_of_parse (hshort : "-v" ∉ tokens) (hlong : "--verbose" ∉ tokens)
    (h : (parse tokens).value = .audit options) : options.verbose = false := by
  have hquiet : ∀ token ∈ tokens, token ∉ Flag.verbose.spellings := by
    intro token htoken hspelling
    simp only [Flag.spellings, List.mem_cons, List.not_mem_nil, or_false] at hspelling
    rcases hspelling with rfl | rfl
    · exact hshort htoken
    · exact hlong htoken
  have hread : ∃ read skipped, scan {} tokens = .ok (read, skipped) ∧
      checkWorkers read = .audit options := by
    rw [scan_eq]
    unfold parse at h
    split at h
    · contradiction
    · simp only [readKnown] at h
      cases hconsume : actions.consume {} (mark vocabulary (splitKnown tokens).1) with
      | error error => simp [hconsume, Except.map] at h
      | ok read => exact ⟨read.1, _, rfl, by simpa [hconsume, Except.map] using h⟩
  obtain ⟨read, skipped, hscan, hchecked⟩ := hread
  have hsame : read = options := by
    unfold checkWorkers at hchecked
    split_ifs at hchecked
    exact Request.audit.inj hchecked
  rw [← hsame]
  exact verbose_of_scan hquiet hscan

/-! ## One run -/

theorem audit_ok_or_endsEarly (terminal : Terminal)
    (hparse : (parse tokens).value = .audit options)
    (hmanifest : Manifest.read limits tree (Path.parse options.manifest) =
      .ok ⟨.ok manifest, events⟩) :
    (∃ outcome, run limits tree terminal tokens = .ok outcome) ∨
      ∃ abort, EndsEarly limits options tree abort ∧
        run limits tree terminal tokens = .error abort := by
  cases hfiles : Source.files limits tree (Path.parse options.root) with
  | error abort =>
      refine Or.inr ⟨abort, ?_, run_of_files_error terminal hparse hmanifest hfiles⟩
      rcases Source.files_eq_error hfiles with ⟨rfl, hdeep⟩ | ⟨⟨path, rfl⟩, hlong⟩
      · exact .deep hdeep
      · exact .long hlong
  | ok sources =>
      obtain ⟨used, hlists, hrun⟩ := run_of_files terminal hparse hmanifest hfiles
      rw [hrun]
      rcases finished_ok_or terminal options _ _ with houtcome | ⟨hfails, hmark⟩
      · exact Or.inl houtcome
      · refine Or.inr ⟨_, ?_, hfails⟩
        by_contra hends
        refine hmark ((isAudit_ignoring hlists).isPrintable ?_)
        intro cls name hname
        by_contra hplain
        exact hends (.unprintable hmanifest hname hplain)

theorem run_ok_or_endsEarly (terminal : Terminal)
    (hmanifest : ∀ options, (parse tokens).value = .audit options → ∃ manifest events,
      Manifest.read limits tree (Path.parse options.manifest) = .ok ⟨.ok manifest, events⟩) :
    (∃ outcome, run limits tree terminal tokens = .ok outcome) ∨
      ∃ options abort, (parse tokens).value = .audit options ∧
        EndsEarly limits options tree abort ∧ run limits tree terminal tokens = .error abort := by
  cases hparse : (parse tokens).value with
  | help =>
      have hrun : run limits tree terminal tokens = .ok ⟨0, help ++ "\n", ""⟩ := by
        simp only [run, hparse]
      exact Or.inl ⟨_, hrun⟩
  | invalid error =>
      have hrun : run limits tree terminal tokens =
          .ok (failed terminal "" ("Error: " ++ error.message)) := by
        simp only [run, hparse]
      exact Or.inl ⟨_, hrun⟩
  | audit options =>
      obtain ⟨manifest, events, hread⟩ := hmanifest options hparse
      rcases audit_ok_or_endsEarly terminal hparse hread with houtcome | ⟨abort, hends, hrun⟩
      · exact Or.inl houtcome
      · exact Or.inr ⟨options, abort, rfl, hends, hrun⟩

/-! ## Two runs -/

theorem ofManifest_congr {left right : Manifest} (used : List CodeText) (checkAll : Bool)
    (h : ∀ cls name, name ∈ left.names cls ↔ name ∈ right.names cls) :
    Analysis.ofManifest left used checkAll = Analysis.ofManifest right used checkAll := by
  refine (Analysis.isAscending_ofManifest ..).eq_of_mem_iff
    (Analysis.isAscending_ofManifest ..) ?_ ?_
  · intro name
    simp only [Analysis.mem_unused_ofManifest, h]
  · intro name
    simp only [Analysis.mem_misplaced_ofManifest, h]

theorem LooksAlike.isUsed_iff (h : LooksAlike limits options tree other) (name : String) :
    Source.IsUsed tree (Path.parse options.root) name ↔
      Source.IsUsed other (Path.parse options.root) name := by
  constructor
  · rintro ⟨location, names, bytes, specifier, hsource, himport⟩
    obtain ⟨place, hplace⟩ := (h.sources names bytes).mp ⟨location, hsource⟩
    exact ⟨place, names, bytes, specifier, hplace, himport⟩
  · rintro ⟨location, names, bytes, specifier, hsource, himport⟩
    obtain ⟨place, hplace⟩ := (h.sources names bytes).mpr ⟨location, hsource⟩
    exact ⟨place, names, bytes, specifier, hplace, himport⟩

/-- Where both scans come to an end, the runs end alike. -/
theorem run_eq_of_files (terminal : Terminal) {sources found : Logged (List Path)}
    (hparse : (parse tokens).value = .audit options) (hquiet : options.verbose = false)
    (h : LooksAlike limits options tree other)
    (hfiles : Source.files limits tree (Path.parse options.root) = .ok sources)
    (hfound : Source.files limits other (Path.parse options.root) = .ok found) :
    run limits tree terminal tokens = run limits other terminal tokens := by
  obtain ⟨manifest, events, changed, others, hmanifest, hchanged, hnames⟩ := h.manifests
  obtain ⟨used, hused, hrun⟩ := run_of_files terminal hparse hmanifest hfiles
  obtain ⟨shared, hshared, hother⟩ := run_of_files terminal hparse hchanged hfound
  have hsame : used.value = shared.value := by
    refine hused.ascending.eq_of_mem_iff hshared.ascending ?_
    intro name
    rw [hused.mem_iff, hshared.mem_iff, h.isUsed_iff]
  have hsilent : ∀ lines, debugLines options lines = "" := by
    intro lines
    simp [debugLines, hquiet]
  rw [hrun, hother, hsame, ofManifest_congr _ _ hnames, hsilent, hsilent]

theorem exists_files_of_run {terminal : Terminal} {outcome : Outcome}
    (hparse : (parse tokens).value = .audit options)
    (hmanifest : Manifest.read limits tree (Path.parse options.manifest) =
      .ok ⟨.ok manifest, events⟩)
    (h : run limits tree terminal tokens = .ok outcome) :
    ∃ sources, Source.files limits tree (Path.parse options.root) = .ok sources := by
  cases hfiles : Source.files limits tree (Path.parse options.root) with
  | ok sources => exact ⟨sources, rfl⟩
  | error abort =>
      rw [run_of_files_error terminal hparse hmanifest hfiles] at h
      contradiction

/-! ## A small project with more in it -/

def noisyManifest : String :=
  "\x7b\"version\": 3, \"devDependencies\": \x7b\"c\": null\x7d, " ++
    "\"dependencies\": \x7b\"b\": \"2\", \"a\": [\"1\"]\x7d, \"peerDependencies\": []\x7d"

/-- The small project with another order, other versions and members in its manifest, and
with files that no audit looks at. -/
def noisyProject : Tree where
  nodes := [
    (["package.json"], .file (Utf8.encode noisyManifest.toList)),
    (["lib"], .directory),
    (["lib", "b.js"], .file (Utf8.encode "import 'b'".toList)),
    (["src"], .directory),
    (["src", ".build-cache"], .directory),
    (["src", ".build-cache", "b.js"], .file (Utf8.encode "import 'b'".toList)),
    (["src", "b.md"], .file (Utf8.encode "import 'b'".toList)),
    (["src", "b.test.js"], .file (Utf8.encode "import 'b'".toList)),
    (["src", "y.ts"], .file (Utf8.encode "require('c/d')".toList)),
    (["src", "x.js"], .file (Utf8.encode "import 'a'".toList))]
  workingDirectory := []
  unique := by decide
  named := by
    have hnames : ([["package.json"], ["lib"], ["lib", "b.js"], ["src"], ["src", ".build-cache"],
        ["src", ".build-cache", "b.js"], ["src", "b.md"], ["src", "b.test.js"], ["src", "y.ts"],
        ["src", "x.js"]].all fun place => place.all isFileName) = true := by cbv
    simpa using hnames
  closed := by simp
  working_directory := Or.inl rfl

theorem exists_isSource_iff {root : Path} {location : Location}
    (hroot : tree.directory? root = .ok (some location)) {names : List String}
    {bytes : List UInt8} :
    (∃ place, Source.IsSource tree root place names bytes) ↔
      (names, bytes) ∈ (tree.filesBelow location).filter fun file =>
        Source.isEligible file.1 := by
  rw [List.mem_filter, Tree.mem_filesBelow]
  constructor
  · rintro ⟨place, hsource⟩
    obtain ⟨hplace, hbelow, hfile, heligible⟩ := Source.isSource_iff.mp hsource
    rw [Tree.location_unique hroot hplace]
    exact ⟨⟨hbelow, hfile⟩, heligible⟩
  · rintro ⟨⟨hbelow, hfile⟩, heligible⟩
    exact ⟨location, Source.isSource_iff.mpr ⟨hroot, hbelow, hfile, heligible⟩⟩

theorem sources_noisyProject :
    ((noisyProject.filesBelow ["src"]).filter fun file => Source.isEligible file.1) =
      [(["y.ts"], Utf8.encode "require('c/d')".toList),
        (["x.js"], Utf8.encode "import 'a'".toList)] := by
  have hfirst : Source.isEligible ["x.js"] = true := by cbv
  have hsecond : Source.isEligible ["y.ts"] = true := by cbv
  have hhidden : Source.isEligible [".build-cache", "b.js"] = false := by cbv
  have htext : Source.isEligible ["b.md"] = false := by cbv
  have htest : Source.isEligible ["b.test.js"] = false := by cbv
  simp [Tree.filesBelow, Tree.nodesBelow, noisyProject, hfirst, hsecond, hhidden, htext, htest]

theorem sources_sampleProject :
    ((Tree.sampleProject.filesBelow ["src"]).filter fun file => Source.isEligible file.1) =
      [(["x.js"], Utf8.encode "import 'a'".toList),
        (["y.ts"], Utf8.encode "require('c/d')".toList)] := by
  have hfirst : Source.isEligible ["x.js"] = true := by cbv
  have hsecond : Source.isEligible ["y.ts"] = true := by cbv
  simp [Tree.filesBelow, Tree.nodesBelow_sampleSources, hfirst, hsecond]

theorem read_noisyProject_names :
    ∃ manifest events,
      Manifest.read .standard noisyProject (Path.parse defaultManifest) =
        .ok ⟨.ok manifest, events⟩ ∧
      manifest.names .production = (["b", "a"] : List CodeText) ∧
      manifest.names .development = (["c"] : List CodeText) ∧ manifest.names .peer = [] := by
  have hread : noisyProject.read (Path.parse defaultManifest) =
      .ok (Utf8.encode noisyManifest.toList) := by
    apply Tree.read_manifest
    simp [Tree.node?, noisyProject]
  have hbytes : Manifest.jsonOfBytes .standard (Utf8.encode noisyManifest.toList) =
      .ok (.ok (.object [
        ("version", .integer 3),
        ("devDependencies", .object [("c", .null)]),
        ("dependencies", .object [("b", .string "2"), ("a", .array [.string "1"])]),
        ("peerDependencies", .array [])])) := by
    cbv
  refine ⟨_, _, Manifest.read_eq_ok hread hbytes, ?_, ?_, ?_⟩ <;> decide

/-- The root may be spelled in any way that leads to the sources. -/
theorem looksAlike_noisyProject
    (hmanifest : options.manifest = defaultManifest)
    (hsample : Tree.sampleProject.directory? (Path.parse options.root) = .ok (some ["src"]))
    (hnoisy : noisyProject.directory? (Path.parse options.root) = .ok (some ["src"])) :
    LooksAlike .standard options Tree.sampleProject noisyProject := by
  constructor
  · obtain ⟨manifest, events, hread, hproduction, hdevelopment, hpeer⟩ := read_sampleProject_names
    obtain ⟨changed, others, hother, hproduction', hdevelopment', hpeer'⟩ :=
      read_noisyProject_names
    rw [hmanifest]
    refine ⟨manifest, events, changed, others, hread, hother, ?_⟩
    intro cls name
    cases cls with
    | production => simp [hproduction, hproduction', or_comm]
    | development => rw [hdevelopment, hdevelopment']
    | peer => rw [hpeer, hpeer']
  · intro names bytes
    rw [exists_isSource_iff hsample, exists_isSource_iff hnoisy, sources_sampleProject,
      sources_noisyProject]
    exact (List.Perm.swap _ _ []).mem_iff

theorem directory?_noisySources :
    noisyProject.directory? (Path.parse "src") = .ok (some ["src"]) := by
  apply Tree.directory?_sources
  simp [Tree.node?, noisyProject]

theorem isScannable_noisyProject :
    Source.IsScannable .standard noisyProject (Path.parse "src") := by
  have hshort : ([["src", ".build-cache"], ["src", ".build-cache", "b.js"], ["src", "b.md"],
      ["src", "b.test.js"], ["src", "y.ts"], ["src", "x.js"]].all fun segments =>
        !Path.isTooLong ⟨.workingDirectory, segments⟩) = true := by cbv
  simp only [List.all_cons, List.all_nil, Bool.and_true, Bool.and_eq_true,
    Bool.not_eq_true'] at hshort
  apply Source.isScannable_sampleSources directory?_noisySources
  simp [Tree.nodesBelow, noisyProject, hshort, Limits.standard]

/-! ## What is seen decides the outcome -/

/-- Without the verbose mode, trees that look alike give one outcome: no two runs that come
to an end differ in anything.  A run that has no outcome met a path that is too long, a
directory that is too deep, or a name that cannot be printed.  Where the first two are
ruled out, both runs end alike in every case. -/
theorem outcome_of_looksAlike (limits : Limits) (terminal : Terminal) (hshort : "-v" ∉ tokens)
    (hlong : "--verbose" ∉ tokens)
    (h : ∀ options, (parse tokens).value = .audit options →
      LooksAlike limits options tree other) :
    (∀ left right, run limits tree terminal tokens = .ok left →
        run limits other terminal tokens = .ok right → left = right) ∧
      (∀ seen ∈ [tree, other], (∃ outcome, run limits seen terminal tokens = .ok outcome) ∨
        ∃ options abort, (parse tokens).value = .audit options ∧
          EndsEarly limits options seen abort ∧
          run limits seen terminal tokens = .error abort) ∧
      ((∀ options, (parse tokens).value = .audit options → ∀ seen ∈ [tree, other],
          Source.IsScannable limits seen (Path.parse options.root)) →
        run limits tree terminal tokens = run limits other terminal tokens) := by
  refine ⟨?_, ?_, ?_⟩
  · intro left right hleft hright
    cases hparse : (parse tokens).value with
    | help =>
        simp only [run, hparse, Except.ok.injEq] at hleft hright
        rw [← hleft, ← hright]
    | invalid error =>
        simp only [run, hparse, Except.ok.injEq] at hleft hright
        rw [← hleft, ← hright]
    | audit options =>
        have halike := h options hparse
        obtain ⟨manifest, events, changed, others, hmanifest, hchanged, -⟩ := halike.manifests
        obtain ⟨sources, hfiles⟩ := exists_files_of_run hparse hmanifest hleft
        obtain ⟨found, hfound⟩ := exists_files_of_run hparse hchanged hright
        have hsame := run_eq_of_files terminal hparse (verbose_of_parse hshort hlong hparse)
          halike hfiles hfound
        rw [hleft, hright, Except.ok.injEq] at hsame
        exact hsame
  · intro seen hseen
    apply run_ok_or_endsEarly
    intro options hparse
    obtain ⟨manifest, events, changed, others, hmanifest, hchanged, -⟩ :=
      (h options hparse).manifests
    simp only [List.mem_cons, List.not_mem_nil, or_false] at hseen
    rcases hseen with rfl | rfl
    · exact ⟨manifest, events, hmanifest⟩
    · exact ⟨changed, others, hchanged⟩
  · intro hscan
    cases hparse : (parse tokens).value with
    | help => simp only [run, hparse]
    | invalid error => simp only [run, hparse]
    | audit options =>
        obtain ⟨sources, hfiles⟩ := (hscan options hparse tree (by simp)).exists_files
        obtain ⟨found, hfound⟩ := (hscan options hparse other (by simp)).exists_files
        exact run_eq_of_files terminal hparse (verbose_of_parse hshort hlong hparse)
          (h options hparse) hfiles hfound

theorem outcome_of_noisyProject :
    "-v" ∉ ["-j", "-d", "src"] ∧ "--verbose" ∉ ["-j", "-d", "src"] ∧
      (∀ options, (parse ["-j", "-d", "src"]).value = .audit options →
        LooksAlike .standard options Tree.sampleProject noisyProject) ∧
      (∀ options, (parse ["-j", "-d", "src"]).value = .audit options →
        ∀ seen ∈ [Tree.sampleProject, noisyProject],
          Source.IsScannable .standard seen (Path.parse options.root)) ∧
      ∃ outcome, run .standard Tree.sampleProject {} ["-j", "-d", "src"] = .ok outcome ∧
        run .standard noisyProject {} ["-j", "-d", "src"] = .ok outcome := by
  have hparse : (parse ["-j", "-d", "src"]).value = .audit { format := .json, root := "src" } :=
    parse_json_root (by decide)
  have halike : ∀ options, (parse ["-j", "-d", "src"]).value = .audit options →
      LooksAlike .standard options Tree.sampleProject noisyProject := by
    intro options hoptions
    rw [hparse, Request.audit.injEq] at hoptions
    subst hoptions
    exact looksAlike_noisyProject rfl Tree.directory?_sampleSources directory?_noisySources
  have hscan : ∀ options, (parse ["-j", "-d", "src"]).value = .audit options →
      ∀ seen ∈ [Tree.sampleProject, noisyProject],
        Source.IsScannable .standard seen (Path.parse options.root) := by
    intro options hoptions
    rw [hparse, Request.audit.injEq] at hoptions
    subst hoptions
    simp [Source.isScannable_sampleProject, isScannable_noisyProject]
  obtain ⟨-, -, hsame⟩ := outcome_of_looksAlike .standard {} (by decide) (by decide) halike
  obtain ⟨outcome, houtcome⟩ := exists_outcome_sampleProject {} hparse rfl
    Source.isScannable_sampleProject
  refine ⟨by decide, by decide, halike, hscan, outcome, houtcome, ?_⟩
  rw [← hsame hscan, houtcome]

/-- The two projects look alike from every root that leads to their sources.  The path of the
hidden directory below this root is too long, so the second run has no outcome. -/
theorem not_outcome_of_hidden_directory :
    "-v" ∉ ["-j", "-d", (Source.climbingPath 583).text] ∧
      "--verbose" ∉ ["-j", "-d", (Source.climbingPath 583).text] ∧
      (∀ options, (parse ["-j", "-d", (Source.climbingPath 583).text]).value = .audit options →
        LooksAlike .standard options Tree.sampleProject noisyProject) ∧
      (∃ outcome, run .standard Tree.sampleProject {}
        ["-j", "-d", (Source.climbingPath 583).text] = .ok outcome) ∧
      ∃ path, run .standard noisyProject {} ["-j", "-d", (Source.climbingPath 583).text] =
        .error (.inaccessible path .nameTooLong) := by
  have hhead := head?_text_climbingPath 583
  have hparse := parse_json_climbingPath 583
  have hpath := Source.parse_climbingPath 583
  generalize (Source.climbingPath 583).text = root at hhead hparse hpath ⊢
  have hplain : ∀ text : String, text.toList.head? = some '-' → text ≠ root := by
    rintro text htext rfl
    rw [hhead] at htext
    exact absurd htext (by decide)
  have hsources : noisyProject.node? ["src"] = some .directory := by
    simp [Tree.node?, noisyProject]
  have hsample : Tree.sampleProject.directory? (Path.parse root) = .ok (some ["src"]) := by
    rw [hpath]
    exact Source.directory?_climbingPath 583 rfl Source.node?_sampleSources (by decide)
  have hnoisy : noisyProject.directory? (Path.parse root) = .ok (some ["src"]) := by
    rw [hpath]
    exact Source.directory?_climbingPath 583 rfl hsources (by decide)
  refine ⟨?_, ?_, ?_, ?_, ?_⟩
  · simp [hplain "-v" rfl]
  · simp [hplain "--verbose" rfl]
  · intro options hoptions
    rw [hparse, Request.audit.injEq] at hoptions
    subst hoptions
    exact looksAlike_noisyProject rfl hsample hnoisy
  · apply exists_outcome_sampleProject {} hparse rfl
    rw [hpath]
    exact Source.isScannable_climbingPath 583 (by decide)
  · obtain ⟨manifest, events, hmanifest, -⟩ := read_noisyProject_names
    have hhidden : noisyProject.node? (["src"] ++ [".build-cache"]) = some .directory := by
      simp [Tree.node?, noisyProject]
    have hlong : ((Path.parse root).join [".build-cache"]).isTooLong = true := by
      rw [hpath, Source.isTooLong_climbingPath_join]
      decide
    have hshallow : Source.IsShallow .standard noisyProject (Path.parse root) := by
      apply Source.isShallow_of_nodesBelow hnoisy
      simp [Tree.nodesBelow, noisyProject, Limits.standard]
    obtain ⟨path, hfiles⟩ :=
      Source.files_of_overlong hnoisy hshallow (by simp) hhidden (Or.inl rfl) hlong
    exact ⟨path, run_of_files_error {} hparse hmanifest hfiles⟩

end DependencyAudit.Run
