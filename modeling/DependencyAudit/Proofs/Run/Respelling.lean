import DependencyAudit.Proofs.Run.JsonReport
import DependencyAudit.Proofs.Source.SameShape
import DependencyAudit.Proofs.Source.StatementParts
import DependencyAudit.Proofs.Text.LineEnds

/-!
# Line ends and byte order marks do not change a run

The manifest and the sources are read in two ways: the manifest strictly and without a
byte order mark, the sources leniently and with the mark as a character that starts no
statement.  Both unify the line ends before anything counts positions or looks for
statements.  So writing files with other line ends or with a mark gives the same
outcome, down to the positions in an error message and the lines of the verbose mode.
A manifest that is no UTF-8 is another matter, as its message counts bytes.
-/

namespace DependencyAudit

/-! ## Files and trees -/

/-- The bytes themselves, or those of the same text with other line ends or a byte order
mark, if the text has neither a carriage return nor a mark of its own. -/
inductive Utf8.IsRespelling (bytes : List UInt8) : List UInt8 → Prop
  | same : IsRespelling bytes bytes
  | respelled (hreturn : 0x0D ∉ bytes) (hmark : ¬ byteOrderMark <+: bytes) (marked : Bool)
      (ending : Text.LineEnd) : IsRespelling bytes (respell marked ending bytes)

inductive Node.IsRespelling : Node → Node → Prop
  | directory : IsRespelling .directory .directory
  | file {bytes spelled} (h : Utf8.IsRespelling bytes spelled) :
      IsRespelling (.file bytes) (.file spelled)

/-- The tree with other line ends or byte order marks in any of its files. -/
structure Tree.IsRespelling (tree other : Tree) : Prop where
  workingDirectory : other.workingDirectory = tree.workingDirectory
  node : ∀ place, Option.Rel Node.IsRespelling (tree.node? place) (other.node? place)

namespace Tree.IsRespelling

variable {tree other : Tree}

theorem sameShape (h : tree.IsRespelling other) : tree.SameShape other := by
  refine ⟨h.workingDirectory, ?_⟩
  intro place
  have hnode := h.node place
  generalize tree.node? place = node at hnode ⊢
  generalize other.node? place = found at hnode ⊢
  cases hnode with
  | none => rfl
  | some hsame => cases hsame <;> rfl

/-- A path fails in both trees for the same reason, or leads to one text in both. -/
theorem read (h : tree.IsRespelling other) (path : Path) :
    (∃ failure, tree.read path = .error failure ∧ other.read path = .error failure) ∨
      ∃ bytes spelled, tree.read path = .ok bytes ∧ other.read path = .ok spelled ∧
        Utf8.IsRespelling bytes spelled := by
  unfold Tree.read
  rw [h.sameShape.locate]
  split
  · exact Or.inl ⟨_, rfl, rfl⟩
  · split
    · exact Or.inl ⟨_, rfl, rfl⟩
    · next location _ =>
        have hnode := h.node location
        generalize tree.node? location = node at hnode ⊢
        generalize other.node? location = found at hnode ⊢
        cases hnode with
        | none => exact Or.inl ⟨_, rfl, rfl⟩
        | some hsame =>
            cases hsame with
            | directory => exact Or.inl ⟨_, rfl, rfl⟩
            | file hbytes => exact Or.inr ⟨_, _, rfl, rfl, hbytes⟩

end Tree.IsRespelling

/-! ## Sources -/

namespace Source

/-- The mark before a source is a character of its text, but starts no statement. -/
theorem specifiersOfBytes_of_isRespelling {bytes spelled : List UInt8}
    (h : Utf8.IsRespelling bytes spelled) :
    specifiersOfBytes spelled = specifiersOfBytes bytes := by
  cases h with
  | same => rfl
  | respelled hreturn hmark marked ending =>
      simp only [specifiersOfBytes, specifiers, String.toList_ofList,
        Utf8.unifyNewlines_decodeLenient_respell hreturn]
      cases marked with
      | false => rfl
      | true =>
          have hmark : '\uFEFF' ∉ ['i', 'f', 'r'] := by decide
          rw [if_pos rfl, List.singleton_append, bodies_cons_of_none (statement?_eq_none hmark _)]

theorem imports_of_isRespelling {tree other : Tree} (h : tree.IsRespelling other) (file : Path) :
    imports other file = imports tree file := by
  unfold imports
  rcases h.read file with ⟨failure, hfails, hother⟩ | ⟨bytes, spelled, hread, hother, hbytes⟩
  · rw [hfails, hother]
  · rw [hread, hother]
    simp only [specifiersOfBytes_of_isRespelling hbytes]

end Source

/-! ## Manifests -/

namespace Manifest

/-- The text that is parsed is the same, so an error in it is at the same position. -/
theorem jsonOfBytes_of_isRespelling {limits : Limits} {characters : List Char}
    {spelled : List UInt8}
    (h : Utf8.IsRespelling (Utf8.encode characters) spelled) :
    jsonOfBytes limits spelled = jsonOfBytes limits (Utf8.encode characters) := by
  cases h with
  | same => rfl
  | respelled hreturn hmark marked ending =>
      obtain ⟨shown, hdecode, hshown⟩ :=
        Utf8.exists_decode_respell hreturn hmark marked ending
      have hplain : Utf8.decode (Utf8.dropByteOrderMark (Utf8.encode characters)) =
          .ok characters :=
        Utf8.decode_dropByteOrderMark_marked (Utf8.head?_of_not_byteOrderMark hmark) false
      have hlines : Text.unifyNewlines characters = characters :=
        Text.unifyNewlines_of_not_mem (Utf8.carriageReturn_not_mem_of_encode hreturn)
      simp only [jsonOfBytes, hdecode, hplain, hshown, hlines]

theorem read_of_isRespelling {limits : Limits} {tree other : Tree} {path : Path}
    (h : tree.IsRespelling other)
    (hvalid : ∀ bytes, tree.read path = .ok bytes →
      ∃ characters, bytes = Utf8.encode characters) :
    read limits other path = read limits tree path := by
  unfold read
  rcases h.read path with ⟨failure, hfails, hother⟩ | ⟨bytes, spelled, hread, hother, hbytes⟩
  · rw [hfails, hother]
  · obtain ⟨characters, rfl⟩ := hvalid bytes hread
    rw [hread, hother]
    simp only [jsonOfBytes_of_isRespelling hbytes]

end Manifest

/-! ## Runs -/

namespace Run

open CommandLine

variable {tree other : Tree} {tokens : List String}

/-- A run on a tree with other line ends and byte order marks has the same outcome, in every
mode, also when it fails, if the manifest is valid UTF-8. -/
theorem run_of_isRespelling (limits : Limits) (terminal : Terminal)
    (h : tree.IsRespelling other)
    (hvalid : ∀ options bytes, (parse tokens).value = .audit options →
      tree.read (Path.parse options.manifest) = .ok bytes →
      ∃ characters, bytes = Utf8.encode characters) :
    run limits other terminal tokens = run limits tree terminal tokens := by
  unfold run
  cases hparse : (parse tokens).value with
  | help => rfl
  | invalid error => rfl
  | audit options =>
      have hmanifest : Manifest.read limits other (Path.parse options.manifest) =
          Manifest.read limits tree (Path.parse options.manifest) :=
        Manifest.read_of_isRespelling h fun bytes => hvalid options bytes hparse
      have hused : Source.usedPackages limits other (Path.parse options.root) options.mode =
          Source.usedPackages limits tree (Path.parse options.root) options.mode :=
        Source.usedPackages_congr (Source.files_of_sameShape h.sameShape limits _)
          (Source.imports_of_isRespelling h) options.mode
      simp only [audit, hmanifest, Analysis.ofSources, hused]

/-- A manifest and one source, with the bytes they hold. -/
def twoFiles (manifest source : List UInt8) : Tree where
  nodes := [
    (["package.json"], .file manifest), (["src"], .directory), (["src", "x.js"], .file source)]
  workingDirectory := []
  unique := by simp
  named := by
    have hnames : ([["package.json"], ["src"], ["src", "x.js"]].all
        fun place => place.all isFileName) = true := by cbv
    simpa using hnames
  closed := by simp
  working_directory := Or.inl rfl

theorem isRespelling_twoFiles {manifest spelled source written : List UInt8}
    (hmanifest : Utf8.IsRespelling manifest spelled)
    (hsource : Utf8.IsRespelling source written) :
    (twoFiles manifest source).IsRespelling (twoFiles spelled written) := by
  refine ⟨rfl, ?_⟩
  intro place
  by_cases hroot : place = []
  · rw [hroot, Tree.node?_nil, Tree.node?_nil]
    exact .some .directory
  by_cases hfirst : place = ["package.json"]
  · simpa [hfirst, Tree.node?, twoFiles] using .file hmanifest
  by_cases hdirectory : place = ["src"]
  · simpa [hdirectory, Tree.node?, twoFiles] using .directory
  by_cases hsecond : place = ["src", "x.js"]
  · simpa [hsecond, Tree.node?, twoFiles] using .file hsource
  · simp [Tree.node?, twoFiles, hroot, Ne.symm hfirst, Ne.symm hdirectory, Ne.symm hsecond]

theorem read_twoFiles (manifest source : List UInt8) :
    (twoFiles manifest source).read (Path.parse defaultManifest) = .ok manifest := by
  apply Tree.read_manifest
  simp [Tree.node?, twoFiles]

/-- The manifest gets a mark and the longer line ends, the source, whose one specifier goes
over two lines and which has a byte that is no UTF-8, carriage returns. -/
theorem run_of_respelled_twoFiles :
    ∃ manifest source,
      (twoFiles manifest source).IsRespelling (twoFiles
        (Utf8.respell true .both manifest) (Utf8.respell false .carriageReturn source)) ∧
      (∀ options bytes, (parse ["-v"]).value = .audit options →
        (twoFiles manifest source).read (Path.parse options.manifest) = .ok bytes →
        ∃ characters, bytes = Utf8.encode characters) ∧
      run .standard (twoFiles (Utf8.respell true .both manifest)
          (Utf8.respell false .carriageReturn source)) {} ["-v"] =
        run .standard (twoFiles manifest source) {} ["-v"] := by
  let manifest := Utf8.encode "\x7b\n \"dependencies\": \x7b\"é\": \"1\"\x7d\n\x7d\n".toList
  let source := Utf8.encode "import\n'a\nb'".toList ++ [0xFF, 0x0A]
  have halike : (twoFiles manifest source).IsRespelling (twoFiles
      (Utf8.respell true .both manifest) (Utf8.respell false .carriageReturn source)) :=
    isRespelling_twoFiles (.respelled (by decide) (by decide) true .both)
      (.respelled (by decide) (by decide) false .carriageReturn)
  have hparse : (parse ["-v"]).value = .audit { verbose := true } := by cbv
  have hvalid : ∀ options bytes, (parse ["-v"]).value = .audit options →
      (twoFiles manifest source).read (Path.parse options.manifest) = .ok bytes →
      ∃ characters, bytes = Utf8.encode characters := by
    intro options bytes hoptions hread
    rw [hparse, Request.audit.injEq] at hoptions
    subst hoptions
    rw [read_twoFiles, Except.ok.injEq] at hread
    exact ⟨_, hread.symm⟩
  exact ⟨manifest, source, halike, hvalid, run_of_isRespelling .standard {} halike hvalid⟩

end Run

end DependencyAudit
