import DependencyAudit.Proofs.Json.CutTexts
import DependencyAudit.Proofs.Manifest.Outcomes
import DependencyAudit.Proofs.Text.LineEnds
import DependencyAudit.Run

/-!
# Files cut short

A file may be cut within a character, within its byte order mark or between the two halves
of a line end.  If what is left can be decoded at all, it holds the first part of the text,
or none of it.  The last character of a text of an object is its closing brace, which is no
spacing, so the first part is not read as a value, and a run on it reports an error.
-/

namespace DependencyAudit

/-! ## The bytes that were cut off -/

namespace Utf8

/-- Bytes that continue the bytes of characters to those of more are themselves bytes of
characters. -/
theorem encode_eq_append {characters front : List Char} {rest : List UInt8}
    (h : encode characters = encode front ++ rest) :
    ∃ more, characters = front ++ more ∧ rest = encode more := by
  have hpieces := pieces_encode characters
  rw [h, pieces_encode_append, eq_comm, List.map_eq_append_iff] at hpieces
  obtain ⟨first, more, rfl, hfirst, hmore⟩ := hpieces
  have hinjective : Function.Injective Piece.scalar := fun _ _ heq => Piece.scalar.inj heq
  rw [hinjective.list_map hfirst]
  refine ⟨more, rfl, ?_⟩
  rw [← decode_eq_ok_iff, decode, scalars_eq_ok_iff, hmore]

/-- A last byte below 0x80 is a character of its own. -/
theorem getLast?_of_encode {characters : List Char} {byte : UInt8} (hascii : byte.toNat < 0x80)
    (h : (encode characters).getLast? = some byte) :
    characters.getLast? = some (Char.ofNat byte.toNat) := by
  obtain ⟨before, hbytes⟩ := List.getLast?_eq_some_iff.mp h
  have hpieces := pieces_encode characters
  have hstate := isValidState_advance isValidState_none before
  rw [hbytes, pieces_append, pieces_cons, step_ascii hstate hascii, pieces_none_nil,
    List.append_nil, ← List.append_assoc] at hpieces
  have hlast := congrArg List.getLast? hpieces
  rw [List.getLast?_concat, List.getLast?_map, eq_comm, Option.map_eq_some_iff] at hlast
  obtain ⟨c, hc, heq⟩ := hlast
  rw [hc, Piece.scalar.inj heq]

/-- Cutting a file leaves nothing behind the byte order mark or cuts what is behind it. -/
theorem dropByteOrderMark_append (front rest : List UInt8) :
    dropByteOrderMark front = [] ∨
      dropByteOrderMark (front ++ rest) = dropByteOrderMark front ++ rest := by
  simp only [dropByteOrderMark, List.isPrefixOf_iff_prefix]
  by_cases hfront : front <+: byteOrderMark
  · exact .inl (if_pos hfront)
  · right
    have hlonger : ¬ front ++ rest <+: byteOrderMark :=
      fun h => hfront ((List.prefix_append front rest).trans h)
    rw [if_neg hfront, if_neg hlonger]
    by_cases hmark : byteOrderMark <+: front
    · have hlength := hmark.length_le
      rw [if_pos (hmark.trans (List.prefix_append front rest)), if_pos hmark,
        List.drop_append_of_le_length hlength]
    · have hnone : ¬ byteOrderMark <+: front ++ rest := by
        intro h
        rcases List.prefix_or_prefix_of_prefix h (List.prefix_append front rest) with h | h
        · exact hmark h
        · exact hfront h
      rw [if_neg hnone, if_neg hmark]

end Utf8

namespace Text

/-- What is added behind a text shows in its lines, up to the last character. -/
theorem exists_unifyNewlines_append_concat (left middle : List Char) {c : Char} (hc : c ≠ '\n')
    (hreturn : c ≠ '\r') :
    ∃ added, unifyNewlines (left ++ (middle ++ [c])) = unifyNewlines left ++ (added ++ [c]) := by
  obtain ⟨added, hadded⟩ := unifyNewlines_prefix_append left middle
  refine ⟨added, ?_⟩
  have hlast : unifyNewlines [c] = [c] := unifyNewlines_cons_of_ne hreturn []
  rw [← List.append_assoc, unifyNewlines_append (by simpa using hc), hlast, ← hadded,
    List.append_assoc]

end Text

namespace Manifest

open Json

variable {limits : Limits} {bytes front rest : List UInt8} {text shown : List Char}
variable {value whole : Json}

/-! ## The text of a file that was cut -/

theorem exists_holdsText_of_jsonOfBytes (h : jsonOfBytes limits bytes = .ok (.ok value)) :
    ∃ text, HoldsText bytes text ∧ parse limits.containers text = .ok value := by
  obtain ⟨characters, hdecode, hparse⟩ := exists_parse_of_jsonOfBytes h
  exact ⟨_, ⟨characters, (Utf8.decode_eq_ok_iff _ _).mp hdecode, rfl⟩, hparse⟩

/-- If a brace was cut off at the end of a file, it was cut off at the end of its text. -/
theorem HoldsText.cut (hfront : HoldsText front shown) (h : HoldsText (front ++ rest) text)
    (hlast : rest.getLast? = some 0x7D) :
    shown = [] ∨ ∃ added, text = shown ++ (added ++ ['\x7d']) := by
  obtain ⟨left, hleft, rfl⟩ := hfront
  obtain ⟨characters, hcharacters, rfl⟩ := h
  rcases Utf8.dropByteOrderMark_append front rest with hnone | hrest
  · left
    rw [hleft] at hnone
    have hnil : left = [] := by
      by_contra hne
      exact Utf8.encode_ne_nil hne hnone
    rw [hnil]
    rfl
  · right
    rw [hcharacters, hleft] at hrest
    obtain ⟨more, rfl, rfl⟩ := Utf8.encode_eq_append hrest
    have hbrace : more.getLast? = some '\x7d' := Utf8.getLast?_of_encode (by decide) hlast
    obtain ⟨middle, rfl⟩ := List.getLast?_eq_some_iff.mp hbrace
    exact Text.exists_unifyNewlines_append_concat left middle (by decide) (by decide)

/-- A file of an object that is cut short before the brace at its end holds no value. -/
theorem jsonOfBytes_ne_of_cut (h : jsonOfBytes limits (front ++ rest) = .ok (.ok whole))
    (hobject : whole.members?.isSome = true) (hlast : rest.getLast? = some 0x7D) (value : Json) :
    jsonOfBytes limits front ≠ .ok (.ok value) := by
  intro hvalue
  obtain ⟨shown, hshown, hfront⟩ := exists_holdsText_of_jsonOfBytes hvalue
  obtain ⟨text, htext, hparse⟩ := exists_holdsText_of_jsonOfBytes h
  rcases hshown.cut htext hlast with rfl | ⟨added, rfl⟩
  · exact not_element_nil value (element_of_parse hfront)
  · have hspacing := isSpacing_of_parse_append hfront hparse hobject
    have hbrace := hspacing '\x7d' (by simp)
    simp at hbrace

/-- A file that is read holds one value. -/
theorem eq_of_holdsValue (h : jsonOfBytes limits bytes = .ok (.ok value))
    (hholds : HoldsValue bytes whole) : whole = value := by
  by_cases hwithin : whole.IsWithin limits.containers Text.maxDigits
  · rw [jsonOfBytes_of_holdsValue hholds hwithin] at h
    simpa using h
  · obtain ⟨characters, hbytes, helement⟩ := hholds
    obtain ⟨hne, hmark⟩ := characters_of_element helement
    have hdecode := (Utf8.decode_dropByteOrderMark_eq_ok_iff hne hmark).mpr hbytes
    have htext : HoldsText bytes (Text.unifyNewlines characters) :=
      ⟨characters, (Utf8.decode_eq_ok_iff _ _).mp hdecode, rfl⟩
    obtain ⟨failure, hlimit, hparse⟩ := parse_of_element_beyond helement hwithin
    obtain ⟨abort, -, habort⟩ := jsonOfBytes_of_limit htext hlimit hparse
    rw [h] at habort
    contradiction

/-! ## Runs on a file that was cut -/

section

variable {tree : Tree} {path : Path} {tokens : List String} {options : CommandLine.Options}

/-- A run on a manifest that is not read ends without a report: with the abort of the reader,
or with its error and the exit code two. -/
theorem run_of_no_value (terminal : Terminal) (hread : tree.read path = .ok bytes)
    (hnone : ∀ value, jsonOfBytes limits bytes ≠ .ok (.ok value))
    (hparse : (CommandLine.parse tokens).value = .audit options)
    (hpath : Path.parse options.manifest = path) :
    (∃ abort, read limits tree path = .error abort ∧
      Run.run limits tree terminal tokens = .error abort) ∨
      ∃ cause, Run.run limits tree terminal tokens =
        .ok (Run.failed terminal "" (ReadError.message ⟨path, cause⟩)) := by
  cases hbytes : jsonOfBytes limits bytes with
  | error abort =>
      have habort := read_of_abort hread hbytes
      refine .inl ⟨abort, habort, ?_⟩
      simp only [Run.run, hparse, Run.audit, hpath, habort]
  | ok result =>
      cases result with
      | error cause =>
          have hcause := read_of_cause hread hbytes
          have hdebug : Run.debugLines options [] = "" := by
            unfold Run.debugLines
            split <;> rfl
          refine .inr ⟨cause, ?_⟩
          simp only [Run.run, hparse, Run.audit, hpath, hcause, hdebug]
      | ok value => exact absurd hbytes (hnone value)

end

/-- A manifest that was cut short is never read, wherever the cut is, and a run on it never
comes to an analysis. -/
theorem cut_manifest_never_read {whole tree : Tree} {path place : Path} {bytes front : List UInt8}
    {manifest : Manifest} {events : List Event} {members : List (CodeText × Json)}
    (hwhole : whole.read path = .ok bytes)
    (hread : read limits whole path = .ok ⟨.ok manifest, events⟩)
    (hobject : HoldsValue bytes (.object members)) (hbrace : bytes.getLast? = some 0x7D)
    (hfront : front <+: bytes) (hcut : front ≠ bytes) (hplace : tree.read place = .ok front) :
    (∀ found later, read limits tree place ≠ .ok ⟨.ok found, later⟩) ∧
      ∀ terminal tokens options, (CommandLine.parse tokens).value = .audit options →
        Path.parse options.manifest = place →
        (∃ abort, read limits tree place = .error abort ∧
          Run.run limits tree terminal tokens = .error abort) ∨
        ∃ cause, Run.run limits tree terminal tokens =
          .ok (Run.failed terminal "" (ReadError.message ⟨place, cause⟩)) := by
  obtain ⟨rest, rfl⟩ := hfront
  have hne : rest ≠ [] := by
    rintro rfl
    exact hcut (List.append_nil front).symm
  have hlast : rest.getLast? = some 0x7D := by
    rwa [List.getLast?_append_of_ne_nil _ hne] at hbrace
  obtain ⟨value, hvalue, -⟩ := jsonOfBytes_of_read hwhole hread
  obtain rfl := eq_of_holdsValue hvalue hobject
  have hnone := jsonOfBytes_ne_of_cut hvalue rfl hlast
  constructor
  · intro found later hfound
    obtain ⟨value, hvalue, -⟩ := jsonOfBytes_of_read hplace hfound
    exact hnone value hvalue
  · intro terminal tokens options hparse hpath
    exact run_of_no_value terminal hplace hnone hparse hpath

/-! ## A manifest cut within a character -/

def manifestFile (bytes : List UInt8) : Tree :=
  Tree.ofFile "package.json" (by cbv) bytes

theorem read_manifestFile (bytes : List UInt8) :
    (manifestFile bytes).read (Path.parse "./package.json") = .ok bytes := by
  rw [Tree.parse_manifest]
  exact Tree.read_ofFile _ bytes

/-- The bytes of an object with one member, whose name is a letter of two bytes. -/
def accented : List UInt8 := [0x7B, 0x22, 0xC3, 0xA9, 0x22, 0x3A, 0x31, 0x7D]

theorem jsonOfBytes_accented :
    jsonOfBytes .standard accented = .ok (.ok (.object [("é", .integer 1)])) := by
  cbv

/-- The cut is between the two bytes of the letter. -/
theorem cut_manifest_of_accented :
    (∃ manifest events, read .standard (manifestFile accented) (Path.parse "./package.json") =
        .ok ⟨.ok manifest, events⟩) ∧
      HoldsValue accented (.object [("é", .integer 1)]) ∧
      (∀ found later,
        read .standard (manifestFile (accented.take 3)) (Path.parse "./package.json") ≠
          .ok ⟨.ok found, later⟩) ∧
      ((∃ abort, Run.run .standard (manifestFile (accented.take 3)) {} [] = .error abort) ∨
        ∃ message, Run.run .standard (manifestFile (accented.take 3)) {} [] =
          .ok (Run.failed {} "" message)) := by
  have hwhole := read_eq_ok (read_manifestFile accented) jsonOfBytes_accented
  have hobject := holdsValue_of_jsonOfBytes jsonOfBytes_accented
  have hcut := read_manifestFile (accented.take 3)
  have hparse : (CommandLine.parse []).value = .audit {} := by decide
  obtain ⟨hread, hruns⟩ := cut_manifest_never_read (read_manifestFile accented) hwhole hobject
    (by decide) (List.take_prefix 3 accented) (by decide) hcut
  refine ⟨⟨_, _, hwhole⟩, hobject, hread, ?_⟩
  rcases hruns {} [] {} hparse rfl with ⟨abort, -, habort⟩ | ⟨cause, hcause⟩
  · exact .inl ⟨abort, habort⟩
  · exact .inr ⟨_, hcause⟩

end Manifest

end DependencyAudit
