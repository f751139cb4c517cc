import DependencyAudit.Proofs.Manifest.Reading
import DependencyAudit.Proofs.Report.PrintedNames

/-!
# A JSON report is read back

The printer and the reader of JSON are separate programs over all of Unicode.  What is
printed is written for its value, and what is written for a value within the limits is
read as that value, so the reader gives back what the printer was given.  A file adds
two steps between them, the encoding and the line ends; the second changes nothing, as
a printed text has no carriage return.
-/

namespace DependencyAudit

namespace Json

open CodeText

/-! ## Carriage returns -/

def carriageReturn : CodePoint := CodePoint.ofChar '\r'

theorem not_mem_escapedChar (c : Char) : '\r' ∉ escapedChar c := by
  have hcontrol : ∀ n < 0x20, '\r' ∉ '\\' :: 'u' :: Text.hexadecimal 4 n := by decide
  unfold escapedChar
  split_ifs with _ _ _ _ _ hreturn _ hcode
  all_goals try decide
  · exact hcontrol c.toNat hcode
  · simpa [eq_comm] using hreturn

theorem not_mem_escaped (code : CodePoint) : carriageReturn ∉ escaped code := by
  unfold escaped
  split
  · rw [carriageReturn, List.mem_map_of_injective CodeText.ofChar_injective]
    exact not_mem_escapedChar code.toChar
  · next hmark =>
      rw [List.mem_singleton]
      rintro rfl
      exact hmark (CodePoint.isCharacter_ofChar '\r')

theorem not_mem_ofString {text : String} (h : '\r' ∉ text.toList) :
    carriageReturn ∉ ofString text :=
  mt ofChar_mem_ofString.mp h

theorem not_mem_quote (value : CodeText) : carriageReturn ∉ quote value := by
  have hmark : carriageReturn ∉ ofString "\"" := not_mem_ofString (by decide)
  simp [quote, not_mem_escaped, hmark]

theorem not_mem_newline (level : Nat) : carriageReturn ∉ newline level := by
  have hfeed : carriageReturn ∉ ofString "\n" := not_mem_ofString (by decide)
  have hblank : carriageReturn ≠ CodePoint.ofChar ' ' := by decide
  simp [newline, hfeed, hblank]

theorem not_mem_toString (n : Int) : '\r' ∉ (toString n).toList := by
  have hdigits : ∀ m, '\r' ∉ Nat.toDigits 10 m := Text.not_mem_toDigits (by decide)
  cases n with
  | ofNat m =>
      rw [Text.toList_toString_ofNat]
      exact hdigits m
  | negSucc m =>
      rw [Text.toList_toString_negSucc]
      simp [hdigits]

mutual

theorem not_mem_renderAt : ∀ (value : Json) (level : Nat),
    (∀ text ∈ reals value, '\r' ∉ text.toList) → carriageReturn ∉ renderAt level value
  | .null, _, _ => not_mem_ofString (by decide)
  | .bool true, _, _ => not_mem_ofString (by decide)
  | .bool false, _, _ => not_mem_ofString (by decide)
  | .integer n, _, _ => not_mem_ofString (not_mem_toString n)
  | .real text, _, h => not_mem_ofString (h text (by simp [reals]))
  | .string value, _, _ => not_mem_quote value
  | .array [], _, _ => not_mem_ofString (by decide)
  | .array (item :: items), level, h => by
      rw [reals, realsOfItems] at h
      have hitem := not_mem_renderAt item (level + 1) fun text htext =>
        h text (List.mem_append_left _ htext)
      have hitems := not_mem_renderItems items (level + 1) fun text htext =>
        h text (List.mem_append_right _ htext)
      simp (disch := decide) [renderAt, not_mem_ofString, not_mem_newline, hitem, hitems]
  | .object [], _, _ => not_mem_ofString (by decide)
  | .object ((name, value) :: members), level, h => by
      rw [reals, realsOfMembers] at h
      have hvalue := not_mem_renderAt value (level + 1) fun text htext =>
        h text (List.mem_append_left _ htext)
      have hmembers := not_mem_renderMembers members (level + 1) fun text htext =>
        h text (List.mem_append_right _ htext)
      simp (disch := decide) [renderAt, not_mem_ofString, not_mem_newline, not_mem_quote, hvalue,
        hmembers]

theorem not_mem_renderItems : ∀ (items : List Json) (level : Nat),
    (∀ text ∈ realsOfItems items, '\r' ∉ text.toList) → carriageReturn ∉ renderItems level items
  | [], _, _ => by simp [renderItems]
  | item :: items, level, h => by
      rw [realsOfItems] at h
      have hitem := not_mem_renderAt item level fun text htext =>
        h text (List.mem_append_left _ htext)
      have hitems := not_mem_renderItems items level fun text htext =>
        h text (List.mem_append_right _ htext)
      simp (disch := decide) [renderItems, not_mem_ofString, not_mem_newline, hitem, hitems]

theorem not_mem_renderMembers : ∀ (members : List (CodeText × Json)) (level : Nat),
    (∀ text ∈ realsOfMembers members, '\r' ∉ text.toList) →
    carriageReturn ∉ renderMembers level members
  | [], _, _ => by simp [renderMembers]
  | (name, value) :: members, level, h => by
      rw [realsOfMembers] at h
      have hvalue := not_mem_renderAt value level fun text htext =>
        h text (List.mem_append_left _ htext)
      have hmembers := not_mem_renderMembers members level fun text htext =>
        h text (List.mem_append_right _ htext)
      simp (disch := decide) [renderMembers, not_mem_ofString, not_mem_newline, not_mem_quote,
        hvalue, hmembers]

end

/-! ## Values -/

/-- Numbers with a fraction or an exponent are kept as their text; a value without any is
read back from what is printed for it. -/
theorem parse_render {levels : Nat} {value : Json} {printed : String} (hreals : reals value = [])
    (hlimits : value.IsWithin levels Text.maxDigits)
    (hprinted : CodeText.string? value.render = some printed) :
    parse levels printed.toList = .ok value :=
  parse_of_element (element_render (by simp [hreals]) hprinted) hlimits

theorem not_mem_of_printed {value : Json} {printed : String} (hreals : reals value = [])
    (hprinted : CodeText.string? value.render = some printed) : '\r' ∉ printed.toList := by
  have htext : value.render = ofString printed := CodeText.string?_eq_some_iff.mp hprinted
  have hrender : carriageReturn ∉ value.render := not_mem_renderAt value 0 (by simp [hreals])
  rwa [htext, carriageReturn, ofString, List.mem_map_of_injective CodeText.ofChar_injective]
    at hrender

end Json

theorem Manifest.jsonOfBytes_encode_render {limits : Limits} {value : Json} {printed : String}
    (hreals : Json.reals value = [])
    (hlimits : value.IsWithin limits.containers Text.maxDigits)
    (hprinted : CodeText.string? value.render = some printed) :
    jsonOfBytes limits (Utf8.encode printed.toList) = .ok (.ok value) := by
  have helement : Json.Element (Text.unifyNewlines printed.toList) value := by
    rw [Text.unifyNewlines_of_not_mem (Json.not_mem_of_printed hreals hprinted)]
    exact Json.element_render (by simp [hreals]) hprinted
  exact jsonOfBytes_of_holdsValue ⟨_, Or.inl rfl, helement⟩ hlimits

/-! ## Reports -/

namespace Report

theorem depthOfItems_map_string (names : List CodeText) :
    Json.depthOfItems (names.map Json.string) = 0 := by
  induction names with
  | nil => rfl
  | cons name rest ih =>
      rw [List.map_cons, Json.depthOfItems, ih]
      rfl

theorem integersOfItems_map_string (names : List CodeText) :
    Json.integersOfItems (names.map Json.string) = [] := by
  induction names with
  | nil => rfl
  | cons name rest ih =>
      rw [List.map_cons, Json.integersOfItems, ih]
      rfl

/-- The only number of a report is the number of its names, and the names are two levels
below the whole. -/
theorem isWithin_jsonValue {analysis : Analysis} {levels digits : Nat} (hlevels : 2 ≤ levels)
    (htotal : analysis.total < 10 ^ digits) : (jsonValue analysis).IsWithin levels digits := by
  constructor
  · simpa [jsonValue, Json.depth, Json.depthOfMembers, depthOfItems_map_string] using hlevels
  · intro n hn
    simp only [jsonValue, Json.integers, Json.integersOfMembers, integersOfItems_map_string,
      List.nil_append, List.append_nil, List.mem_singleton] at hn
    rw [hn, Int.natAbs_natCast]
    exact htotal

/-- The reader gives the two lists of a JSON report back in order, whatever characters the
names have, both from the text and from a file that holds it.  The names stand in two
containers.  The reader refuses a number of more than 4300 digits; no list has that many
names. -/
theorem jsonReport_read_back (limits : Limits) (terminal : Terminal) (analysis : Analysis)
    (hlevels : 2 ≤ limits.containers) (hplain : analysis.IsPrintable)
    (htotal : analysis.unused.length + analysis.misplaced.length < 10 ^ Text.maxDigits) :
    ∃ report, CodeText.string? (render terminal analysis .json) = some report ∧
      Json.parse limits.containers report.toList = .ok (.object [
        ("unused", .array (analysis.unused.map Json.string)),
        ("misplaced", .array (analysis.misplaced.map Json.string)),
        ("totalIssues", .integer (analysis.unused.length + analysis.misplaced.length))]) ∧
      Manifest.jsonOfBytes limits (Utf8.encode report.toList) =
        .ok (.ok (.object [
          ("unused", .array (analysis.unused.map Json.string)),
          ("misplaced", .array (analysis.misplaced.map Json.string)),
          ("totalIssues", .integer (analysis.unused.length + analysis.misplaced.length))])) := by
  have hreals := reals_jsonValue analysis
  have hlimits : (jsonValue analysis).IsWithin limits.containers Text.maxDigits :=
    isWithin_jsonValue hlevels htotal
  obtain ⟨report, hreport⟩ := exists_printed terminal .json hplain
  refine ⟨report, hreport, ?_, ?_⟩
  · exact Json.parse_render hreals hlimits hreport
  · exact Manifest.jsonOfBytes_encode_render hreals hlimits hreport

/-- Names with a quote mark, a backslash, line ends, control characters, a byte order mark and
a character beyond the basic plane; an empty name; a name twice; and none in order. -/
theorem hardNames_read_back :
    2 ≤ Limits.standard.containers ∧
      (⟨["z\"\\", "a\r\n", "\x00\x1f\x7f"], ["", "é😀", "\uFEFF", "b", "b"]⟩ :
        Analysis).IsPrintable ∧
      (3 : Nat) + 5 < 10 ^ Text.maxDigits ∧
      ∃ report, CodeText.string? (render {}
          ⟨["z\"\\", "a\r\n", "\x00\x1f\x7f"], ["", "é😀", "\uFEFF", "b", "b"]⟩ .json) =
            some report ∧
        Manifest.jsonOfBytes .standard (Utf8.encode report.toList) =
          .ok (.ok (.object [
            ("unused", .array [.string "z\"\\", .string "a\r\n", .string "\x00\x1f\x7f"]),
            ("misplaced", .array
              [.string "", .string "é😀", .string "\uFEFF", .string "b", .string "b"]),
            ("totalIssues", .integer 8)])) := by
  have hlevels : 2 ≤ Limits.standard.containers := by decide
  have hplain : (⟨["z\"\\", "a\r\n", "\x00\x1f\x7f"], ["", "é😀", "\uFEFF", "b", "b"]⟩ :
      Analysis).IsPrintable := by
    simp [Analysis.IsPrintable, or_imp, forall_and]
  have hfew : (3 : Nat) + 5 < 10 ^ Text.maxDigits :=
    lt_of_lt_of_le (by decide : 3 + 5 < 10 ^ 1) (Nat.pow_le_pow_right (by decide) (by decide))
  obtain ⟨report, hreport, -, hbytes⟩ := jsonReport_read_back .standard {}
    ⟨["z\"\\", "a\r\n", "\x00\x1f\x7f"], ["", "é😀", "\uFEFF", "b", "b"]⟩ hlevels hplain hfew
  exact ⟨hlevels, hplain, hfew, report, hreport, hbytes⟩

/-- Two analyses with the same printed JSON report are the same. -/
theorem analysis_of_printed {terminal other : Terminal} {left right : Analysis}
    {report : String} (htotal : left.total < 10 ^ Text.maxDigits)
    (hother : right.total < 10 ^ Text.maxDigits)
    (hleft : CodeText.string? (render terminal left .json) = some report)
    (hright : CodeText.string? (render other right .json) = some report) : left = right := by
  have hback := Json.parse_render (reals_jsonValue left) (isWithin_jsonValue le_rfl htotal) hleft
  have hvalues : jsonValue left = jsonValue right := by
    rw [Json.parse_render (reals_jsonValue right) (isWithin_jsonValue le_rfl hother) hright]
      at hback
    exact (Except.ok.inj hback).symm
  have hstring : Function.Injective Json.string := fun _ _ heq => Json.string.inj heq
  obtain ⟨unused, misplaced⟩ := left
  obtain ⟨others, wrong⟩ := right
  simp only [jsonValue, Json.object.injEq, List.cons.injEq, Prod.mk.injEq, Json.array.injEq,
    true_and] at hvalues
  rw [hstring.list_map hvalues.1, hstring.list_map hvalues.2.1]

end Report

end DependencyAudit
