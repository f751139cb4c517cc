import DependencyAudit.Proofs.Source.ExclusionRule
import DependencyAudit.Proofs.Source.SourceScan

/-!
# Files that are promised to be skipped

The promise speaks of the names on the way to a file, one by one: the file lies in one of
four directories, or one of two words stands between dots in its own name.  The patterns
are searched for in the whole way.  They keep the promise for the directories, whatever
else the names hold.  For the words they keep it where the part of the name before the word
is one line, or ends in one behind a backslash, which they take for a slash.  A line feed in
the way is more than a star of theirs can stand for.
-/

namespace DependencyAudit.Source

variable {limits : Limits} {tree : Tree} {root : Path} {names : List String}
variable {sources : Logged (List Path)}

/-! ## What is promised -/

/-- One of the directories is on the way to the file. -/
def LiesInExcludedDirectory (names : List String) : Prop :=
  ∃ name ∈ names.dropLast, name ∈ excludedDirectories

/-- Behind the stem of the name, one of the words stands between dots. -/
def IsTestName (stem name : String) : Prop :=
  ∃ word ∈ testWords, ∃ ending, name = stem ++ "." ++ word ++ "." ++ ending

/-- What stands behind the last backslash of the stem, or all of it, is one line. -/
def EndsInLine (stem : String) : Prop :=
  ∃ line, '\n' ∉ line.toList ∧ (stem = line ∨ ∃ front, stem = front ++ "\\" ++ line)

/-! ## The directories -/

theorem infix_of_excludedDirectory {name : String} (hname : name ∈ excludedDirectories)
    (rest : List Char) :
    '/' :: name.toList ++ ['/'] <:+: rooted (name.toList ++ '/' :: rest) := by
  have hplain : ∀ name ∈ excludedDirectories,
      (name.toList ++ ['/']).head? ≠ some '/' ∧ '\\' ∉ name.toList ++ ['/'] := by decide
  rcases hplain name hname with ⟨hhead, hbackslash⟩
  have hbegins := rooted_append_of_plain hhead hbackslash [] rest
  simpa [rooted] using hbegins.isInfix

theorem isExcluded_below_directory {name : String} (hname : name ∈ excludedDirectories)
    (path : String) : isExcluded (name ++ "/" ++ path) = true := by
  have htext : (name ++ "/" ++ path).toList = name.toList ++ '/' :: path.toList := by simp
  rw [isExcluded_iff, htext]
  exact Or.inl ⟨name, hname, infix_of_excludedDirectory hname path.toList⟩

theorem LiesInExcludedDirectory.exists_below (h : LiesInExcludedDirectory names) :
    ∃ above name below, names = above ++ name :: below ∧ below ≠ [] ∧
      name ∈ excludedDirectories := by
  rcases h with ⟨name, hmem, hname⟩
  have hne : names ≠ [] := by
    intro hnone
    rw [hnone] at hmem
    contradiction
  rcases List.append_of_mem hmem with ⟨above, between, hsplit⟩
  have hnames : names = above ++ name :: (between ++ [names.getLast hne]) := by
    calc names = names.dropLast ++ [names.getLast hne] := (List.dropLast_append_getLast hne).symm
      _ = above ++ name :: between ++ [names.getLast hne] := by rw [hsplit]
      _ = above ++ name :: (between ++ [names.getLast hne]) := by simp
  exact ⟨above, name, between ++ [names.getLast hne], hnames, by simp, hname⟩

theorem isExcluded_of_directory (h : LiesInExcludedDirectory names) :
    isExcluded ("/".intercalate names) = true := by
  rcases h.exists_below with ⟨above, name, below, rfl, hbelow, hname⟩
  rcases List.exists_cons_of_ne_nil hbelow with ⟨next, more, rfl⟩
  have hentered : isExcluded ("/".intercalate (name :: next :: more)) = true := by
    rw [String.intercalate_cons_cons]
    exact isExcluded_below_directory hname _
  exact isExcluded_intercalate_append (List.cons_ne_nil _ _) hentered above

/-! ## The words -/

/-- A stem of one line is a run that a star can stand for. -/
theorem isExcluded_of_line {line word : String} (hline : '\n' ∉ line.toList)
    (hword : word ∈ testWords) (ending : String) :
    isExcluded (line ++ "." ++ word ++ "." ++ ending) = true := by
  have hwords : ∀ word ∈ testWords, ('.' :: word.toList ++ ['.']).head? ≠ some '/' ∧
      '\\' ∉ '.' :: word.toList ++ ['.'] ∧ '\n' ∉ '.' :: word.toList ++ ['.'] := by decide
  rcases hwords word hword with ⟨hhead, hbackslash, hdotted⟩
  have htext : (line ++ "." ++ word ++ "." ++ ending).toList =
      line.toList ++ ('.' :: word.toList ++ ['.']) ++ ending.toList := by simp
  have hbegins := rooted_append_of_plain hhead hbackslash line.toList ending.toList
  have hpart : IsTestPart word.toList (rooted line.toList ++ ('.' :: word.toList ++ ['.'])) := by
    refine ⟨?_, (rooted line.toList).tail ++ ['.'], '.', by simp, by simp [rooted]⟩
    rw [List.mem_append, not_or]
    exact ⟨not_mem_rooted hline, hdotted⟩
  rw [isExcluded_iff, htext]
  exact Or.inr ⟨word, hword, _, hbegins.isInfix, hpart⟩

theorem isExcluded_of_isTestName {stem name : String} (hstem : EndsInLine stem)
    (h : IsTestName stem name) : isExcluded name = true := by
  rcases h with ⟨word, hword, ending, rfl⟩
  rcases hstem with ⟨line, hline, rfl | ⟨front, rfl⟩⟩
  · exact isExcluded_of_line hline hword ending
  · have htext : (front ++ "\\" ++ line ++ "." ++ word ++ "." ++ ending).toList =
        front.toList ++ '\\' :: (line ++ "." ++ word ++ "." ++ ending).toList := by simp
    apply isExcluded_of_suffix (isExcluded_of_line hline hword ending)
    rw [htext]
    exact rooted_suffix_append (Or.inr rfl) _ _

theorem isExcluded_of_last {stem : String} (hstem : EndsInLine stem)
    (h : IsTestName stem (names.getLastD "")) : isExcluded ("/".intercalate names) = true := by
  have hlast : isExcluded (names.getLastD "") = true := isExcluded_of_isTestName hstem h
  rcases List.eq_nil_or_concat' names with rfl | ⟨above, last, rfl⟩
  · exact hlast
  · have hpath : "/".intercalate [last] = last := String.intercalate_singleton
    rw [List.getLastD_concat, ← hpath] at hlast
    exact isExcluded_intercalate_append (List.cons_ne_nil _ _) hlast above

/-! ## The scan -/

theorem not_mem_files_of_isExcluded (h : isExcluded ("/".intercalate names) = true)
    (hfiles : files limits tree root = .ok sources) : root.join names ∉ sources.value := by
  intro hmem
  rcases (mem_files hfiles).mp hmem with ⟨location, others, bytes, hsource, hpath⟩
  have hincluded := hsource.included
  rw [← Path.join_left_cancel hpath, h] at hincluded
  exact Bool.false_ne_true hincluded.symm

theorem exists_files_ofFile {name : String} (hname : isFileName name = true)
    (heligible : isEligible [name] = true) (bytes : List UInt8) :
    ∃ sources,
      files .standard (Tree.ofFile name hname bytes) ⟨.workingDirectory, []⟩ = .ok sources ∧
      ⟨.workingDirectory, [name]⟩ ∈ sources.value := by
  have hroot : (Tree.ofFile name hname bytes).directory? ⟨.workingDirectory, []⟩ =
      .ok (some []) := Tree.directory?_here _
  have hbelow : (Tree.ofFile name hname bytes).nodesBelow [] = [([name], .file bytes)] := by
    simp [Tree.nodesBelow, Tree.ofFile]
  have hscan : IsScannable .standard (Tree.ofFile name hname bytes) ⟨.workingDirectory, []⟩ := by
    refine isScannable_of_nodesBelow hroot (by simp) (by cbv) ?_
    rw [hbelow]
    simpa [Path.join, Limits.standard] using Tree.isTooLong_of_isFileName hname
  have hfile : (Tree.ofFile name hname bytes).node? ([] ++ [name]) = some (.file bytes) := by
    simp [Tree.node?, Tree.ofFile]
  rcases hscan.exists_files with ⟨sources, hsources⟩
  refine ⟨sources, hsources, (mem_files hsources).mpr ?_⟩
  exact ⟨[], [name], bytes, isSource_iff.mpr ⟨hroot, List.cons_ne_nil _ _, hfile, heligible⟩, rfl⟩

/-- The patterns match what is promised to be skipped, and no scan gives it, as far as the
stem of the name ends in a line. -/
theorem promised_files_are_skipped (h : LiesInExcludedDirectory names ∨
      ∃ stem, EndsInLine stem ∧ IsTestName stem (names.getLastD "")) :
    isExcluded ("/".intercalate names) = true ∧
      ∀ limits tree root sources, files limits tree root = .ok sources →
        root.join names ∉ sources.value := by
  have hexcluded : isExcluded ("/".intercalate names) = true := by
    rcases h with hdirectory | ⟨stem, hstem, hname⟩
    · exact isExcluded_of_directory hdirectory
    · exact isExcluded_of_last hstem hname
  exact ⟨hexcluded, fun _ _ _ _ hfiles => not_mem_files_of_isExcluded hexcluded hfiles⟩

theorem promised_file_of_two_lines :
    (∃ stem, EndsInLine stem ∧ IsTestName stem (["lib", "a\n\\b.test.ts"].getLastD "")) ∧
      isExcluded "lib/a\n\\b.test.ts" = true := by
  have hname : ∃ stem, EndsInLine stem ∧
      IsTestName stem (["lib", "a\n\\b.test.ts"].getLastD "") :=
    ⟨"a\n\\b", ⟨"b", by decide, Or.inr ⟨"a\n", rfl⟩⟩, "test", by decide, "ts", rfl⟩
  exact ⟨hname, (promised_files_are_skipped (Or.inr hname)).1⟩

/-! ## Stems of several lines -/

theorem isPrefix_behind_slash {part text : List Char} (hslash : '/' ∉ text)
    (h : '/' :: part <:+: '/' :: text) : part <+: text := by
  rcases List.infix_cons_iff.mp h with hfirst | hlater
  · exact (List.prefix_cons_inj _).mp hfirst
  · exact absurd (hlater.subset (List.mem_cons_self ..)) hslash

theorem isPrefix_of_line {part line rest : List Char} (hpart : '\n' ∉ part)
    (h : part <+: line ++ '\n' :: rest) : part <+: line := by
  rcases h with ⟨after, heq⟩
  rcases List.append_eq_append_iff.mp heq with ⟨more, hline, -⟩ | ⟨more, rfl, hmore⟩
  · exact ⟨more, hline.symm⟩
  · cases more with
    | nil => rw [List.append_nil]
    | cons c others =>
        obtain ⟨rfl, -⟩ := List.cons.inj hmore
        simp at hpart

/-- In the name of a file that starts with a line without the words, no pattern finds one of
them behind the end of that line. -/
theorem isExcluded_of_lineFeed {line rest : String}
    (hslash : '/' ∉ (line ++ "\n" ++ rest).toList)
    (hbackslash : '\\' ∉ (line ++ "\n" ++ rest).toList)
    (hwords : ∀ word ∈ testWords, ¬ word.toList <:+: line.toList) :
    isExcluded (line ++ "\n" ++ rest) = false := by
  have hhead : (line ++ "\n" ++ rest).toList.head? ≠ some '/' := fun hfirst =>
    hslash (List.mem_of_head? hfirst)
  have htext : (line ++ "\n" ++ rest).toList = line.toList ++ '\n' :: rest.toList := by simp
  rw [← Bool.not_eq_true, isExcluded_iff, rooted_of_plain hhead hbackslash]
  intro hfound
  rcases hfound with ⟨name, -, hstands⟩ | ⟨word, hword, part, hpart, honeLine, hspelled⟩
  · have hbegins : name.toList ++ ['/'] <+: (line ++ "\n" ++ rest).toList :=
      isPrefix_behind_slash hslash hstands
    exact hslash (hbegins.subset (by simp))
  · rcases hspelled with ⟨front, last, -, rfl⟩
    have hbegins : front ++ word.toList ++ [last] <+: (line ++ "\n" ++ rest).toList :=
      isPrefix_behind_slash hslash hpart
    rw [htext] at hbegins
    have hinside : front ++ word.toList ++ [last] <+: line.toList :=
      isPrefix_of_line (fun hmem => honeLine (List.mem_cons_of_mem '/' hmem)) hbegins
    have hstands : word.toList <:+: front ++ word.toList ++ [last] := ⟨front, [last], rfl⟩
    exact hwords word hword (hstands.trans hinside.isInfix)

/-- A line feed in the stem is enough for a file not to be skipped. -/
theorem not_skipped_of_lineFeed :
    IsTestName "a\nb" (["a\nb.test.ts"].getLastD "") ∧
      isExcluded ("/".intercalate ["a\nb.test.ts"]) = false ∧
      ∃ tree sources, files .standard tree (Path.parse ".") = .ok sources ∧
        (Path.parse ".").join ["a\nb.test.ts"] ∈ sources.value := by
  have hname : isFileName "a\nb.test.ts" = true := by cbv
  have hexcluded : isExcluded ("a" ++ "\n" ++ "b.test.ts") = false :=
    isExcluded_of_lineFeed (by decide) (by decide) (by decide)
  have hsuffix : Path.suffix (["a\nb.test.ts"].getLastD "") = ".ts" := by cbv
  have hvisible : isHidden "a\nb.test.ts" = false := by cbv
  have heligible : isEligible ["a\nb.test.ts"] = true := by
    rw [isEligible_iff]
    refine ⟨?_, ?_, hexcluded⟩
    · rw [hsuffix]
      exact List.mem_cons_self ..
    · intro name hmem
      rw [List.mem_singleton.mp hmem]
      exact hvisible
  have hroot : Path.parse "." = ⟨.workingDirectory, []⟩ := by cbv
  rcases exists_files_ofFile hname heligible [] with ⟨sources, hsources, hmem⟩
  rw [hroot]
  exact ⟨⟨"test", by decide, "ts", rfl⟩, hexcluded, _, sources, hsources, hmem⟩

end DependencyAudit.Source
