import DependencyAudit.Proofs.Json.Limits
import DependencyAudit.Proofs.Manifest.Reading

/-!
# How the reading of a manifest can end

A path and a tree leave five ways: a path with a null character is not even opened, a
file that cannot be opened or decoded gives a read error with its cause, a text of a
JSON value within the limits gives the manifest, and any other text a read error too,
unless it passes a limit of the reader.  Then, and with a null character in the path, no
result comes back at all, also for a text that is JSON.
-/

namespace DependencyAudit.Manifest

open Json

variable {limits : Limits} {bytes : List UInt8} {text : List Char}

/-- After at most one byte order mark, the bytes are the UTF-8 of characters that make up
the text when their line ends are unified. -/
def HoldsText (bytes : List UInt8) (text : List Char) : Prop :=
  ∃ characters, Utf8.dropByteOrderMark bytes = Utf8.encode characters ∧
    text = Text.unifyNewlines characters

/-- What a text has that made the reader give up: digits in a row, or opening brackets,
more than its limit. -/
inductive PassesLimit (limits : Limits) (text : List Char) : Abort → Prop
  | digits {run : List Char} : run <:+: text → IsDigits run → Text.maxDigits < run.length →
      PassesLimit limits text (.integerTooLong run.length)
  | depth {container : Container} : limits.containers < text.countP isOpening →
      PassesLimit limits text (.nestedTooDeep container)

/-! ## The bytes of a file -/

theorem jsonOfBytes_of_undecodable (h : ∀ text, ¬ HoldsText bytes text) :
    ∃ fault, jsonOfBytes limits bytes = .ok (.error (.undecodable fault)) := by
  unfold jsonOfBytes
  cases hdecode : Utf8.decode (Utf8.dropByteOrderMark bytes) with
  | error fault => exact ⟨fault, rfl⟩
  | ok characters =>
      exact absurd ⟨characters, (Utf8.decode_eq_ok_iff _ _).mp hdecode, rfl⟩ (h _)

theorem jsonOfBytes_of_parse {value : Json} (h : HoldsText bytes text)
    (hparse : Json.parse limits.containers text = .ok value) :
    jsonOfBytes limits bytes = .ok (.ok value) := by
  obtain ⟨characters, hbytes, rfl⟩ := h
  simp only [jsonOfBytes, (Utf8.decode_eq_ok_iff _ _).mpr hbytes, hparse]

theorem jsonOfBytes_of_malformed {problem : Problem} {position : Nat} (h : HoldsText bytes text)
    (hparse : Json.parse limits.containers text = .error (.malformed problem position)) :
    ∃ error, jsonOfBytes limits bytes = .ok (.error (.malformed error)) := by
  obtain ⟨characters, hbytes, rfl⟩ := h
  simp only [jsonOfBytes, (Utf8.decode_eq_ok_iff _ _).mpr hbytes, hparse]
  exact ⟨_, rfl⟩

theorem jsonOfBytes_of_limit {failure : Failure} (h : HoldsText bytes text)
    (hlimit : failure.IsLimit) (hparse : Json.parse limits.containers text = .error failure) :
    ∃ abort, PassesLimit limits text abort ∧ jsonOfBytes limits bytes = .error abort := by
  have hreason := hasReason_of_parse hparse
  obtain ⟨characters, hbytes, rfl⟩ := h
  cases hreason with
  | malformed => exact hlimit.elim
  | digits hrun hdigits hlong =>
      refine ⟨_, .digits hrun hdigits hlong, ?_⟩
      simp only [jsonOfBytes, (Utf8.decode_eq_ok_iff _ _).mpr hbytes, hparse]
  | @depth container hdepth =>
      rw [Nat.zero_add] at hdepth
      refine ⟨.nestedTooDeep container, .depth hdepth, ?_⟩
      simp only [jsonOfBytes, (Utf8.decode_eq_ok_iff _ _).mpr hbytes, hparse]

theorem jsonOfBytes_of_not_element (h : HoldsText bytes text)
    (hnone : ∀ value, ¬ Element text value) :
    (∃ error, jsonOfBytes limits bytes = .ok (.error (.malformed error))) ∨
      ∃ abort, PassesLimit limits text abort ∧ jsonOfBytes limits bytes = .error abort := by
  cases hparse : Json.parse limits.containers text with
  | ok value => exact absurd (element_of_parse hparse) (hnone value)
  | error failure =>
      cases failure with
      | malformed problem position => exact Or.inl (jsonOfBytes_of_malformed h hparse)
      | integerTooLong digits =>
          have hlimit : (Failure.integerTooLong digits).IsLimit := trivial
          exact Or.inr (jsonOfBytes_of_limit h hlimit hparse)
      | nestedTooDeep container =>
          have hlimit : (Failure.nestedTooDeep container).IsLimit := trivial
          exact Or.inr (jsonOfBytes_of_limit h hlimit hparse)

/-! ## The file -/

variable {tree : Tree} {path : Path}

theorem read_of_cause {cause : Cause} (hread : tree.read path = .ok bytes)
    (h : jsonOfBytes limits bytes = .ok (.error cause)) :
    read limits tree path = .ok ⟨.error ⟨path, cause⟩, []⟩ := by
  simp only [read, hread, h]

theorem read_of_abort {abort : Abort} (hread : tree.read path = .ok bytes)
    (h : jsonOfBytes limits bytes = .error abort) : read limits tree path = .error abort := by
  simp only [read, hread, h]

/-- Every way in which reading a manifest can end.  It ends without a result only for a
null character in the path or a text that passes a limit of the reader. -/
theorem outcome_of_read (limits : Limits) (tree : Tree) (path : Path) :
    (path.hasNull = true → read limits tree path = .error .nullInPath) ∧
    (∀ error, tree.read path = .error (.denied error) →
      read limits tree path = .ok ⟨.error ⟨path, .denied error⟩, []⟩) ∧
    ∀ bytes, tree.read path = .ok bytes →
      ((∀ text, ¬ HoldsText bytes text) →
        ∃ fault, read limits tree path = .ok ⟨.error ⟨path, .undecodable fault⟩, []⟩) ∧
      ∀ text, HoldsText bytes text →
        (∀ value, Element text value → value.IsWithin limits.containers Text.maxDigits →
          ∃ events, read limits tree path = .ok ⟨.ok (ofJson value), events⟩) ∧
        (∀ value, Element text value → ¬ value.IsWithin limits.containers Text.maxDigits →
          ∃ abort, PassesLimit limits text abort ∧ read limits tree path = .error abort) ∧
        ((∀ value, ¬ Element text value) →
          (∃ error, read limits tree path = .ok ⟨.error ⟨path, .malformed error⟩, []⟩) ∨
            ∃ abort, PassesLimit limits text abort ∧ read limits tree path = .error abort) := by
  refine ⟨?_, ?_, ?_⟩
  · intro hnull
    simp only [read, Tree.read, if_pos hnull]
  · intro error hdenied
    simp only [read, hdenied]
  · intro bytes hread
    constructor
    · intro hnone
      obtain ⟨fault, hfault⟩ := jsonOfBytes_of_undecodable hnone
      exact ⟨fault, read_of_cause hread hfault⟩
    · intro text htext
      refine ⟨?_, ?_, ?_⟩
      · intro value helement hwithin
        have hvalue := jsonOfBytes_of_parse htext (parse_of_element helement hwithin)
        exact ⟨_, read_eq_ok hread hvalue⟩
      · intro value helement hbeyond
        obtain ⟨failure, hlimit, hparse⟩ := parse_of_element_beyond helement hbeyond
        obtain ⟨abort, hpasses, habort⟩ := jsonOfBytes_of_limit htext hlimit hparse
        exact ⟨abort, hpasses, read_of_abort hread habort⟩
      · intro hnone
        rcases jsonOfBytes_of_not_element htext hnone with ⟨error, herror⟩ | habort
        · exact Or.inl ⟨error, read_of_cause hread herror⟩
        · obtain ⟨abort, hpasses, habort⟩ := habort
          exact Or.inr ⟨abort, hpasses, read_of_abort hread habort⟩

/-! ## A manifest beyond the limits -/

/-- A tree whose only file is a manifest. -/
def manifestProject (manifest : List Char) : Tree where
  nodes := [(["package.json"], .file (Utf8.encode manifest))]
  workingDirectory := []
  unique := by simp
  named := by
    have hname : isFileName "package.json" = true := by cbv
    simp [hname]
  closed := by simp
  working_directory := Or.inl rfl

theorem read_manifestProject (manifest : List Char) :
    (manifestProject manifest).read (Path.parse "./package.json") =
      .ok (Utf8.encode manifest) := by
  apply Tree.read_manifest
  simp [Tree.node?, manifestProject]

/-- Empty arrays within arrays, so many levels deep below the outermost. -/
def nested : Nat → Json
  | 0 => .array []
  | levels + 1 => .array [nested levels]

def brackets : Nat → List Char
  | 0 => ['[', ']']
  | levels + 1 => '[' :: brackets levels ++ [']']

theorem element_of_written {body : List Char} {value : Json} (h : Written body value) :
    Element body value := by
  simpa using Element.mk isSpacing_nil h isSpacing_nil

theorem written_brackets (levels : Nat) : Written (brackets levels) (nested levels) := by
  induction levels with
  | zero => exact .emptyArray isSpacing_nil
  | succ levels ih => exact .array (.last (element_of_written ih))

theorem depth_nested (levels : Nat) : (nested levels).depth = levels + 1 := by
  induction levels with
  | zero => rfl
  | succ levels ih => simp [nested, depth, depthOfItems, ih]

theorem plain_brackets {levels : Nat} {c : Char} (h : c ∈ brackets levels) : c = '[' ∨ c = ']' := by
  induction levels with
  | zero => simpa [brackets] using h
  | succ levels ih =>
      simp only [brackets, List.cons_append, List.mem_cons, List.mem_append, List.not_mem_nil,
        or_false] at h
      rcases h with rfl | h | rfl
      · exact Or.inl rfl
      · exact ih h
      · exact Or.inr rfl

theorem unifyNewlines_brackets (levels : Nat) :
    Text.unifyNewlines (brackets levels) = brackets levels := by
  apply Text.unifyNewlines_of_not_mem
  intro hmem
  rcases plain_brackets hmem with heq | heq <;> contradiction

theorem holdsText_brackets (levels : Nat) :
    HoldsText (Utf8.encode (brackets levels)) (brackets levels) := by
  have hhead : (brackets levels).head? = some '[' := by
    cases levels <;> rfl
  have hne : brackets levels ≠ [] := by
    intro hnil
    simp [hnil] at hhead
  have hmark : (brackets levels).head? ≠ some '\uFEFF' := by
    rw [hhead]
    decide
  have hdecode := (Utf8.decode_dropByteOrderMark_eq_ok_iff hne hmark).mpr (Or.inl rfl)
  exact ⟨_, (Utf8.decode_eq_ok_iff _ _).mp hdecode, (unifyNewlines_brackets levels).symm⟩

/-- Neither a null character in the path nor brackets that nest too deep, though they are
JSON, give a result of any kind. -/
theorem no_result_of_read :
    Element (brackets 4999) (nested 4999) ∧
      (manifestProject (brackets 4999)).read (Path.parse "./package.json") =
        .ok (Utf8.encode (brackets 4999)) ∧
      (∃ abort, read .standard (manifestProject (brackets 4999)) (Path.parse "./package.json") =
        .error abort) ∧
      read .standard Tree.sampleProject (Path.parse "a\x00b") = .error .nullInPath := by
  have helement := element_of_written (written_brackets 4999)
  have hread := read_manifestProject (brackets 4999)
  have hbeyond : ¬ (nested 4999).IsWithin Limits.standard.containers Text.maxDigits := by
    intro hwithin
    have hdepth := hwithin.depth_le
    rw [depth_nested] at hdepth
    exact absurd hdepth (by decide)
  obtain ⟨failure, hlimit, hparse⟩ := parse_of_element_beyond helement hbeyond
  obtain ⟨abort, -, habort⟩ := jsonOfBytes_of_limit (holdsText_brackets 4999) hlimit hparse
  have hnull : (Path.parse "a\x00b").hasNull = true := by cbv
  refine ⟨helement, hread, ⟨abort, read_of_abort hread habort⟩, ?_⟩
  simp only [read, Tree.read, if_pos hnull]

end DependencyAudit.Manifest
