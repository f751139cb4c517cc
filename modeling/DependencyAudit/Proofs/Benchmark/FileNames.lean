import DependencyAudit.Benchmark.Project
import DependencyAudit.Proofs.Json.Printing
import DependencyAudit.Proofs.Source.ExclusionRule
import DependencyAudit.Proofs.Source.UsedPackages

/-!
# Names of generated files

A generated file is named by its number and one of four suffixes.  No two numbers give
one name, the name is one that a file may have as long as it has no more than 255
bytes, and no name is that of a hidden or an excluded file, so every generated file is
a source.
-/

namespace DependencyAudit.Benchmark

open Source

def fileName (index : Nat) (suffix : String) : String :=
  "file_" ++ toString index ++ "." ++ suffix

variable {index other : Nat} {suffix ending : String}

theorem exists_name_generateFile (draws : Draws) (index : Nat) :
    ∃ suffix ∈ sourceSuffixes, (generateFile draws index).1.name = fileName index suffix := by
  have hsome := draws.choose?_isSome (by decide : sourceSuffixes ≠ [])
  obtain ⟨suffix, hsuffix⟩ := Option.isSome_iff_exists.mp hsome
  refine ⟨suffix, List.mem_of_getElem? hsuffix, ?_⟩
  have hname : (generateFile draws index).1.name =
      fileName index ((draws.choose? sourceSuffixes).1.getD "") := rfl
  rw [hname, hsuffix, Option.getD_some]

theorem toList_fileName (index : Nat) (suffix : String) :
    (fileName index suffix).toList =
      "file_".toList ++ Nat.toDigits 10 index ++ '.' :: suffix.toList := by
  have hdigits : (toString index).toList = Nat.toDigits 10 index := Nat.toList_repr
  have hdot : ".".toList = ['.'] := rfl
  rw [fileName, String.toList_append, String.toList_append, String.toList_append, hdigits, hdot,
    List.append_assoc, List.singleton_append]

/-- The number of a file can be read off its name. -/
theorem fileName_inj (h : fileName index suffix = fileName other ending) : index = other := by
  have htext := congrArg String.toList h
  rw [toList_fileName, toList_fileName, List.append_assoc, List.append_assoc,
    List.append_cancel_left_eq] at htext
  have hdigits : Nat.toDigits 10 index = Nat.toDigits 10 other := by
    have hcut := congrArg (List.takeWhile fun c => c.isDigit) htext
    have hplain : ∀ n, ∀ c ∈ Nat.toDigits 10 n, c.isDigit = true := fun n c hc =>
      Text.isDigit_of_mem_toDigits hc
    rwa [Text.takeWhile_append_cons (hplain index) (by decide),
      Text.takeWhile_append_cons (hplain other) (by decide)] at hcut
  rw [← Json.ofDigits_toDigits index, hdigits, Json.ofDigits_toDigits]

/-! ## Names that a file may have -/

theorem utf8Len_toDigits (index : Nat) :
    String.utf8Len (Nat.toDigits 10 index) = (Nat.toDigits 10 index).length := by
  have hdigits : ∀ c ∈ Nat.toDigits 10 index, c.isDigit = true := fun c hc =>
    Text.isDigit_of_mem_toDigits hc
  generalize Nat.toDigits 10 index = digits at hdigits ⊢
  induction digits with
  | nil => rfl
  | cons c rest ih =>
      rw [List.forall_mem_cons] at hdigits
      have hsize : c.utf8Size = 1 := by
        have hdigit := hdigits.1
        simp only [Char.isDigit, Bool.and_eq_true, decide_eq_true_eq] at hdigit
        rw [Char.utf8Size_eq_one_iff]
        exact UInt32.le_trans hdigit.2 (by decide)
      rw [String.utf8Len_cons, ih hdigits.2, hsize, List.length_cons]

theorem utf8ByteSize_fileName (index : Nat) (suffix : String) :
    (fileName index suffix).utf8ByteSize =
      5 + (Nat.toDigits 10 index).length + 1 + suffix.utf8ByteSize := by
  have hfront : "file_".utf8ByteSize = 5 := rfl
  have hdot : ".".utf8ByteSize = 1 := rfl
  have hdigits : (toString index).utf8ByteSize = (Nat.toDigits 10 index).length := by
    have htext : toString index = String.ofList (Nat.toDigits 10 index) := by
      rw [← Nat.toList_repr, String.ofList_toList]
      rfl
    rw [htext, String.utf8ByteSize_ofList, utf8Len_toDigits]
  rw [fileName, String.utf8ByteSize_append, String.utf8ByteSize_append,
    String.utf8ByteSize_append, hfront, hdot, hdigits]

/-- A number of at most 246 digits leaves room for the rest of the name. -/
theorem utf8ByteSize_fileName_le (hindex : index < 10 ^ 246) (hsuffix : suffix ∈ sourceSuffixes) :
    (fileName index suffix).utf8ByteSize ≤ maxNameBytes := by
  have hdigits : (Nat.toDigits 10 index).length ≤ 246 :=
    (Nat.length_toDigits_le_iff (by decide) (by decide)).mpr hindex
  have hshort : ∀ suffix ∈ sourceSuffixes, suffix.utf8ByteSize ≤ 3 := by decide
  have hsize := hshort suffix hsuffix
  rw [utf8ByteSize_fileName, maxNameBytes]
  omega

theorem not_mem_toList_fileName {c : Char} (hdigit : c.isDigit = false) (hdot : c ≠ '.')
    (hletters : c ∉ "file_".toList) (hsuffix : c ∉ suffix.toList) :
    c ∉ (fileName index suffix).toList := by
  rw [toList_fileName, List.mem_append, List.mem_append, List.mem_cons, not_or, not_or, not_or]
  exact ⟨⟨hletters, Text.not_mem_toDigits hdigit index⟩, hdot, hsuffix⟩

/-- Nothing but its length can be wrong with the name of a generated file. -/
theorem isFileName_fileName (hsuffix : suffix ∈ sourceSuffixes)
    (hsize : (fileName index suffix).utf8ByteSize ≤ maxNameBytes) :
    isFileName (fileName index suffix) = true := by
  have hplain : ∀ suffix ∈ sourceSuffixes, '/' ∉ suffix.toList ∧ '\x00' ∉ suffix.toList := by
    decide
  obtain ⟨hslash, hnull⟩ := hplain suffix hsuffix
  have hnoSlash : '/' ∉ (fileName index suffix).toList :=
    not_mem_toList_fileName (by decide) (by decide) (by decide) hslash
  have hnoNull : '\x00' ∉ (fileName index suffix).toList :=
    not_mem_toList_fileName (by decide) (by decide) (by decide) hnull
  have hletters : ∀ text : String, 'f' ∉ text.toList → fileName index suffix ≠ text := by
    rintro text htext rfl
    exact htext (by simp [toList_fileName])
  simp [isFileName, hletters "" (by decide), hletters "." (by decide), hletters ".." (by decide),
    String.contains_char_eq, hnoSlash, hnoNull, hsize]

/-! ## Generated files are sources -/

theorem suffixOf_append {stem ending : List Char} (hstem : stem ≠ []) (hending : ending ≠ [])
    (hplain : '.' ∉ ending) : Path.suffixOf (stem ++ '.' :: ending) = '.' :: ending := by
  have hreverse : (stem ++ '.' :: ending).reverse = ending.reverse ++ '.' :: stem.reverse := by
    simp
  have hplain' : ∀ c ∈ ending.reverse, decide (c ≠ '.') = true := by
    intro c hc
    rw [decide_eq_true_eq]
    rintro rfl
    exact hplain (List.mem_reverse.mp hc)
  simp only [Path.suffixOf, hreverse]
  rw [Text.takeWhile_append_cons hplain' (by decide),
    Text.dropWhile_append_cons hplain' (by decide)]
  simp [hstem, hending]

theorem suffix_fileName (hsuffix : suffix ∈ sourceSuffixes) :
    Path.suffix (fileName index suffix) ∈ suffixes := by
  have hendings : ∀ suffix ∈ sourceSuffixes, suffix.toList ≠ [] ∧ '.' ∉ suffix.toList ∧
      String.ofList ('.' :: suffix.toList) ∈ suffixes := by decide
  obtain ⟨hending, hplain, hmem⟩ := hendings suffix hsuffix
  rw [Path.suffix, toList_fileName, suffixOf_append (by simp) hending hplain]
  exact hmem

theorem rooted_fileName (hsuffix : suffix ∈ sourceSuffixes) :
    rooted (fileName index suffix).toList = '/' :: (fileName index suffix).toList := by
  have hplain : ∀ suffix ∈ sourceSuffixes, '\\' ∉ suffix.toList := by decide
  have hbackslash : '\\' ∉ (fileName index suffix).toList :=
    not_mem_toList_fileName (by decide) (by decide) (by decide) (hplain suffix hsuffix)
  have hhead : (fileName index suffix).toList.head? ≠ some '/' := by
    rw [toList_fileName]
    exact (by decide : some 'f' ≠ some '/')
  exact rooted_of_plain hhead hbackslash

/-- The one letter e of a name comes after an l. -/
theorem not_infix_test (hsuffix : suffix ∈ sourceSuffixes) :
    ¬ "test".toList <:+: '/' :: (fileName index suffix).toList := by
  rintro ⟨before, after, htext⟩
  have hplain : ∀ suffix ∈ sourceSuffixes, 'e' ∉ suffix.toList := by decide
  have hrest : 'e' ∉ '_' :: (Nat.toDigits 10 index ++ '.' :: suffix.toList) := by
    simp [hplain suffix hsuffix, Text.not_mem_toDigits (by decide : 'e'.isDigit = false)]
  have hname : '/' :: (fileName index suffix).toList =
      ['/', 'f', 'i', 'l'] ++ 'e' :: '_' :: (Nat.toDigits 10 index ++ '.' :: suffix.toList) := by
    rw [toList_fileName, List.append_assoc]
    rfl
  have hword : before ++ "test".toList ++ after =
      before ++ ['t'] ++ 'e' :: ('s' :: 't' :: after) := by
    simp
  rw [hname, hword, eq_comm, List.append_cons_inj_of_notMem (by decide) hrest] at htext
  have hlast := congrArg List.getLast? htext.1
  rw [List.getLast?_concat] at hlast
  exact absurd hlast (by decide)

theorem not_infix_of_letter {c : Char} {word : String} (hsuffix : suffix ∈ sourceSuffixes)
    (hword : c ∈ word.toList) (hother : c ∉ '/' :: '.' :: "file_tsxj".toList)
    (hdigit : c.isDigit = false) : ¬ word.toList <:+: '/' :: (fileName index suffix).toList := by
  have hplain : ∀ suffix ∈ sourceSuffixes, ∀ d ∈ suffix.toList, d ∈ "file_tsxj".toList := by
    simp [sourceSuffixes]
  have hletters : ∀ d ∈ "file_".toList, d ∈ "file_tsxj".toList := by simp
  rw [List.mem_cons, List.mem_cons, not_or, not_or] at hother
  intro hinfix
  have hmem := hinfix.subset hword
  rw [List.mem_cons] at hmem
  rcases hmem with hslash | hmem
  · exact hother.1 hslash
  · exact not_mem_toList_fileName hdigit hother.2.1 (fun h => hother.2.2 (hletters c h))
      (fun h => hother.2.2 (hplain suffix hsuffix c h)) hmem

theorem isExcluded_fileName (hsuffix : suffix ∈ sourceSuffixes) :
    isExcluded (fileName index suffix) = false := by
  rw [← Bool.not_eq_true]
  intro hexcluded
  obtain ⟨word, hword, hinfix⟩ := exists_excludedWord hexcluded
  rw [rooted_fileName hsuffix] at hinfix
  simp only [excludedWords, List.mem_cons, List.not_mem_nil, or_false] at hword
  rcases hword with rfl | rfl | rfl | rfl
  · exact not_infix_of_letter hsuffix (by decide : 'n' ∈ _) (by decide) (by decide) hinfix
  · exact not_infix_of_letter hsuffix (by decide : 'd' ∈ _) (by decide) (by decide) hinfix
  · exact not_infix_test hsuffix hinfix
  · exact not_infix_of_letter hsuffix (by decide : 'p' ∈ _) (by decide) (by decide) hinfix

theorem isEligible_fileName (hsuffix : suffix ∈ sourceSuffixes) :
    isEligible [fileName index suffix] = true := by
  have hpath : "/".intercalate [fileName index suffix] = fileName index suffix := rfl
  have hvisible : isHidden (fileName index suffix) = false := by
    rw [isHidden, toList_fileName]
    rfl
  rw [isEligible_iff, hpath]
  refine ⟨suffix_fileName hsuffix, ?_, isExcluded_fileName hsuffix⟩
  intro name hname
  rwa [List.mem_singleton.mp hname]

end DependencyAudit.Benchmark
