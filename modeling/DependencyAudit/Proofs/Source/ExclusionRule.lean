import DependencyAudit.Proofs.Source.GlobMatches
import DependencyAudit.Source.Exclusion

/-!
# What the exclusion patterns mean

Each pattern spells out a part that a path must hold, with runs around it that a search
does not notice.  Four patterns hold a directory name between slashes.  The other two hold
a word behind a slash and something more, and one more character after it; as a dot stands
for any character, the word needs no dots around it.  In a path of one line the slash at
the start will do, so only the place of the word counts.  A path without any of these words
is therefore not excluded, and a path that is excluded still is when it is entered from
further above.
-/

namespace DependencyAudit.Source

/-! ## The two kinds of patterns -/

def excludedDirectories : List String := ["node_modules", "dist", "test", "tests"]

def testWords : List String := ["test", "spec"]

/-- Anything, a name between slashes, and anything. -/
def Glob.ofDirectory (name : List Char) : Glob :=
  .run :: .run :: (('/' :: name ++ ['/']).map .literal ++ [.run] ++ [.run])

/-- The part that a word pattern must find: a slash, a run, any one character, the word and
any one character. -/
def Glob.testPart (word : List Char) : Glob :=
  .literal '/' :: ([.run] ++ .any :: (word.map .literal ++ [.any]))

/-- Anything, the part around a word, and anything. -/
def Glob.ofWord (word : List Char) : Glob :=
  .run :: .run :: (Glob.testPart word ++ [.run])

/-- A slash, something, a word and one more character, all in one line. -/
def IsTestPart (word part : List Char) : Prop :=
  '\n' ∉ part ∧ ∃ front last, front ≠ [] ∧ part = '/' :: front ++ word ++ [last]

theorem mem_exclusions_iff {glob : Glob} : glob ∈ exclusions ↔
    (∃ name ∈ excludedDirectories, glob = Glob.ofDirectory name.toList) ∨
      ∃ word ∈ testWords, glob = Glob.ofWord word.toList := by
  have hlist : exclusions = [Glob.ofDirectory "node_modules".toList,
      Glob.ofDirectory "dist".toList, Glob.ofWord "test".toList, Glob.ofWord "spec".toList,
      Glob.ofDirectory "test".toList, Glob.ofDirectory "tests".toList] := by decide
  simp only [hlist, excludedDirectories, testWords, List.mem_cons, List.not_mem_nil, or_false,
    exists_eq_or_imp, exists_eq_left]
  tauto

theorem Glob.foundIn_ofDirectory {name text : List Char} :
    Glob.FoundIn (Glob.ofDirectory name) text ↔ '/' :: name ++ ['/'] <:+: text := by
  rw [Glob.ofDirectory, Glob.foundIn_run_cons, Glob.foundIn_run_cons, Glob.foundIn_append_run,
    Glob.foundIn_append_run, Glob.foundIn_iff_infix]
  simp only [Glob.matches_literals_iff, exists_eq_right]

theorem Glob.matches_testPart_iff {word part : List Char} (hword : '\n' ∉ word) :
    (Glob.testPart word).Matches part ↔ IsTestPart word part := by
  constructor
  · intro h
    cases h with
    | literal hrest =>
        obtain ⟨skipped, behind, rfl, hskipped, hbehind⟩ := Glob.matches_append_iff.mp hrest
        cases hbehind with
        | @any _ c text hc hafter =>
            obtain ⟨spelled, ending, rfl, hspelled, hending⟩ := Glob.matches_append_iff.mp hafter
            obtain rfl := Glob.matches_literals_iff.mp hspelled
            obtain ⟨last, hlast, rfl⟩ := Glob.matches_any_iff.mp hending
            have hline := Glob.matches_run_iff.mp hskipped
            refine ⟨?_, skipped ++ [c], last, by simp, by simp⟩
            simp [hline, hword, Ne.symm hc, Ne.symm hlast]
  · rintro ⟨hline, front, last, hfront, rfl⟩
    -- The last of the characters before the word is the one that the dot takes.
    obtain ⟨skipped, c, rfl⟩ := (List.eq_nil_or_concat' front).resolve_left hfront
    simp only [List.cons_append, List.append_assoc, List.nil_append, List.mem_cons,
      List.mem_append, List.not_mem_nil, or_false, not_or] at hline
    obtain ⟨-, hskipped, hc, -, hlast⟩ := hline
    have hending : Glob.Matches (word.map .literal ++ [.any]) (word ++ [last]) :=
      (Glob.matches_literals_iff.mpr rfl).append
        (Glob.matches_any_iff.mpr ⟨last, Ne.symm hlast, rfl⟩)
    have hbehind := (Glob.matches_run_iff.mpr hskipped).append (.any (Ne.symm hc) hending)
    simpa [Glob.testPart] using Glob.Matches.literal hbehind

theorem Glob.foundIn_ofWord {word text : List Char} (hword : '\n' ∉ word) :
    Glob.FoundIn (Glob.ofWord word) text ↔ ∃ part, part <:+: text ∧ IsTestPart word part := by
  rw [Glob.ofWord, Glob.foundIn_run_cons, Glob.foundIn_run_cons, Glob.foundIn_append_run,
    Glob.foundIn_iff_infix]
  simp only [Glob.matches_testPart_iff hword]

/-! ## What a path must hold -/

/-- One of the directories stands between two slashes. -/
def HasExcludedDirectory (path : List Char) : Prop :=
  ∃ name ∈ excludedDirectories, '/' :: name.toList ++ ['/'] <:+: path

/-- One of the words stands in a part of one line. -/
def HasTestPart (path : List Char) : Prop :=
  ∃ word ∈ testWords, ∃ part, part <:+: path ∧ IsTestPart word.toList part

/-- One of the words stands with two characters or more before it, and not at the end. -/
def HasInnerTestWord (path : List Char) : Prop :=
  ∃ word ∈ testWords, ∃ front back,
    path = front ++ word.toList ++ back ∧ 2 ≤ front.length ∧ back ≠ []

theorem isExcluded_iff {relative : String} : isExcluded relative = true ↔
    HasExcludedDirectory (rooted relative.toList) ∨ HasTestPart (rooted relative.toList) := by
  have hwords : ∀ word ∈ testWords, '\n' ∉ word.toList := by decide
  simp only [isExcluded, List.any_eq_true, Glob.isIn_iff, mem_exclusions_iff]
  constructor
  · rintro ⟨-, ⟨name, hname, rfl⟩ | ⟨word, hword, rfl⟩, hfound⟩
    · exact .inl ⟨name, hname, Glob.foundIn_ofDirectory.mp hfound⟩
    · exact .inr ⟨word, hword, (Glob.foundIn_ofWord (hwords word hword)).mp hfound⟩
  · rintro (⟨name, hname, hfound⟩ | ⟨word, hword, hfound⟩)
    · exact ⟨_, .inl ⟨name, hname, rfl⟩, Glob.foundIn_ofDirectory.mpr hfound⟩
    · exact ⟨_, .inr ⟨word, hword, rfl⟩, (Glob.foundIn_ofWord (hwords word hword)).mpr hfound⟩

def excludedWords : List String := ["node_modules", "dist", "test", "spec"]

theorem exists_excludedWord {relative : String} (h : isExcluded relative = true) :
    ∃ word ∈ excludedWords, word.toList <:+: rooted relative.toList := by
  rcases isExcluded_iff.mp h with ⟨name, hname, hstands⟩ | ⟨word, hword, part, hpart, hspelled⟩
  · have hnames : ∀ name ∈ excludedDirectories, ∃ word ∈ excludedWords,
        word.toList <:+: name.toList := by decide
    obtain ⟨word, hword, hinside⟩ := hnames name hname
    have hslashes : name.toList <:+: '/' :: name.toList ++ ['/'] := ⟨['/'], ['/'], rfl⟩
    exact ⟨word, hword, hinside.trans (hslashes.trans hstands)⟩
  · have hwords : ∀ word ∈ testWords, word ∈ excludedWords := by decide
    obtain ⟨-, front, last, -, rfl⟩ := hspelled
    have hinside : word.toList <:+: '/' :: front ++ word.toList ++ [last] :=
      ⟨'/' :: front, [last], rfl⟩
    exact ⟨word, hwords word hword, hinside.trans hpart⟩

/-! ## What is searched of a text without backslashes -/

theorem map_slash_of_plain {text : List Char} (h : '\\' ∉ text) :
    (text.map fun c => if c = '\\' then '/' else c) = text := by
  have hsame : ∀ c ∈ text, (if c = '\\' then '/' else c) = id c := by
    intro c hc
    apply if_neg
    intro heq
    exact h (heq ▸ hc)
  rw [List.map_congr_left hsame, List.map_id]

theorem rooted_of_plain {text : List Char} (hhead : text.head? ≠ some '/')
    (hplain : '\\' ∉ text) : rooted text = '/' :: text := by
  rw [rooted, map_slash_of_plain hplain]
  cases text with
  | nil => rfl
  | cons c rest => rw [List.dropWhile_cons_of_neg (by simpa using hhead)]

/-- A plain part of a text is searched as it is, behind what is searched of the text before
it. -/
theorem rooted_append_of_plain {plain : List Char} (hhead : plain.head? ≠ some '/')
    (hplain : '\\' ∉ plain) (line rest : List Char) :
    rooted line ++ plain <+: rooted (line ++ plain ++ rest) := by
  have hkept : plain <+: (plain ++ rest.map fun c => if c = '\\' then '/' else c).dropWhile
      (· = '/') := by
    cases plain with
    | nil => exact List.nil_prefix
    | cons c more =>
        rw [List.cons_append, List.dropWhile_cons_of_neg (by simpa using hhead)]
        exact List.prefix_append (c :: more) _
  rw [List.append_assoc, rooted, rooted, List.map_append, List.map_append,
    map_slash_of_plain hplain, List.dropWhile_append, List.cons_append]
  refine (List.prefix_cons_inj _).mpr ?_
  split
  · next hnone =>
      rw [List.isEmpty_iff.mp hnone]
      exact hkept
  · rw [← List.append_assoc]
    exact List.prefix_append _ _

/-! ## Deeper paths -/

theorem slash_dropWhile_suffix (text : List Char) :
    '/' :: text.dropWhile (· = '/') <:+ '/' :: text := by
  induction text with
  | nil => exact List.suffix_refl _
  | cons c rest ih =>
      by_cases hc : c = '/'
      · subst hc
        rw [List.dropWhile_cons_of_pos (by decide)]
        exact ih.trans (List.suffix_cons _ _)
      · rw [List.dropWhile_cons_of_neg (by simpa using hc)]

/-- What is searched of a path ends what is searched when the path is entered from further
above.  The leading slashes that are left out do not matter, for one is put back. -/
theorem rooted_suffix_append {separator : Char} (h : separator = '/' ∨ separator = '\\')
    (directory path : List Char) :
    rooted path <:+ rooted (directory ++ separator :: path) := by
  have hseparator : (if separator = '\\' then '/' else separator) = '/' := by
    rcases h with rfl | rfl <;> simp
  rw [rooted, rooted, List.map_append, List.map_cons, hseparator, List.dropWhile_append]
  split
  · rw [List.dropWhile_cons_of_pos (by decide)]
  · refine (slash_dropWhile_suffix _).trans ?_
    rw [← List.cons_append]
    exact List.suffix_append _ _

theorem isExcluded_of_suffix {path longer : String} (h : isExcluded path = true)
    (hsuffix : rooted path.toList <:+ rooted longer.toList) : isExcluded longer = true := by
  rw [isExcluded, List.any_eq_true] at h ⊢
  rcases h with ⟨glob, hglob, hfound⟩
  exact ⟨glob, hglob, Glob.isIn_iff.mpr ((Glob.isIn_iff.mp hfound).mono hsuffix.isInfix)⟩

/-- What is excluded stays excluded when the scan begins further above. -/
theorem isExcluded_append {path : String} (h : isExcluded path = true) (directory : String) :
    isExcluded (directory ++ "/" ++ path) = true := by
  have htext : (directory ++ "/" ++ path).toList = directory.toList ++ '/' :: path.toList := by
    simp
  apply isExcluded_of_suffix h
  rw [htext]
  exact rooted_suffix_append (Or.inl rfl) _ _

theorem isExcluded_intercalate_append {names : List String} (hnames : names ≠ [])
    (h : isExcluded ("/".intercalate names) = true) (directory : List String) :
    isExcluded ("/".intercalate (directory ++ names)) = true := by
  by_cases hdirectory : directory = []
  · rw [hdirectory, List.nil_append]
    exact h
  · rw [String.intercalate_append_of_ne_nil hdirectory hnames]
    exact isExcluded_append h _

/-! ## Paths of one line -/

theorem not_mem_rooted {relative : List Char} (h : '\n' ∉ relative) :
    '\n' ∉ rooted relative := by
  rw [rooted, List.mem_cons, not_or]
  refine ⟨by decide, fun hmem => ?_⟩
  obtain ⟨c, hc, heq⟩ := List.mem_map.mp ((List.dropWhile_sublist _).subset hmem)
  split at heq
  · exact absurd heq (by decide)
  · exact h (heq ▸ hc)

/-- Behind the slash that a text of one line starts with, only the place of a word counts. -/
theorem hasTestPart_iff_of_line {text : List Char} (hline : '\n' ∉ '/' :: text) :
    HasTestPart ('/' :: text) ↔ HasInnerTestWord ('/' :: text) := by
  constructor
  · rintro ⟨word, hword, -, ⟨before, after, htext⟩, -, front, last, hfront, rfl⟩
    refine ⟨word, hword, before ++ '/' :: front, last :: after, by simp [← htext], ?_, by simp⟩
    have hlength := List.length_pos_iff.mpr hfront
    simp only [List.length_append, List.length_cons]
    omega
  · rintro ⟨word, hword, front, back, htext, hfront, hback⟩
    obtain ⟨last, after, rfl⟩ := List.exists_cons_of_ne_nil hback
    match front, hfront with
    | slash :: c :: front, _ =>
        obtain ⟨rfl, rfl⟩ := List.cons.inj htext
        have hstands : '/' :: (c :: front) ++ word.toList ++ [last] <:+:
            '/' :: (c :: front ++ word.toList ++ last :: after) := ⟨[], after, by simp⟩
        exact ⟨word, hword, _, hstands, fun hmem => hline (hstands.subset hmem),
          c :: front, last, by simp, rfl⟩

/-! ## The rule -/

/-- A path is excluded if it has one of the directories in it, or one of the words in a part
of one line: a slash, at least one character, the word and one more character.  In a path
of one line the place of the word is enough. -/
theorem exclusion_rule (relative : String) :
    (isExcluded relative = true ↔
      HasExcludedDirectory (rooted relative.toList) ∨ HasTestPart (rooted relative.toList)) ∧
    ('\n' ∉ relative.toList → (isExcluded relative = true ↔
      HasExcludedDirectory (rooted relative.toList) ∨
        HasInnerTestWord (rooted relative.toList))) := by
  refine ⟨isExcluded_iff, fun hline => ?_⟩
  have hpart : HasTestPart (rooted relative.toList) ↔ HasInnerTestWord (rooted relative.toList) :=
    hasTestPart_iff_of_line (not_mem_rooted hline)
  rw [isExcluded_iff, hpart]

/-- The word in a longer name is enough. -/
theorem exclusion_rule_contest :
    '\n' ∉ "src\\contest.ts".toList ∧ isExcluded "src\\contest.ts" = true := by
  have hline : '\n' ∉ "src\\contest.ts".toList := by decide
  refine ⟨hline, ((exclusion_rule "src\\contest.ts").2 hline).mpr (.inr ?_)⟩
  exact ⟨"test", by decide, "/src/con".toList, ".ts".toList, by decide, by decide, by decide⟩

end DependencyAudit.Source
